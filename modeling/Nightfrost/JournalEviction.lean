import Nightfrost.CrashSafety

namespace Nightfrost.JournalEviction

open JournalFormat JournalReader Versions FjallKeyspace CrashSafety

variable {T M : Type}

/-- Rotates the partitions that the store lists. -/
def unstickFlushing (lib : TreeLib T M) (partitions : List String) (ks : Keyspace T M) : Keyspace T M :=
  partitions.foldl (fun ks name => rotateMemtable lib name ks) ks

def journalCount (ks : Keyspace T M) : Nat := ks.sealed.length + 1

def isRotate : Event → Bool
  | .rotate _ => true
  | _ => false

def isCrash : Event → Bool
  | .crash _ _ => true
  | _ => false

def isFlushing : Event → Bool
  | .flush _ _ => true
  | .maintenance => true
  | _ => false

inductive Further (lib : TreeLib T M) (coding : TreeCoding) (parts : List String) (ks : Keyspace T M) :
    List Event → Keyspace T M → Prop
  | here : Further lib coding parts ks [] ks
  | then {events : List Event} {ks' ks'' : Keyspace T M} (h : Further lib coding parts ks events ks')
      (event : Event) (hadmissible : event.Admissible parts ks')
      (hstep : step lib coding parts ks' event = .ok ks'') :
      Further lib coding parts ks (events ++ [event]) ks''

/-- The writes that are in segments or in memtables queued for them. -/
def flushable (writes : M → List Write) (view : TreeView M) : List Write :=
  view.segments ++ view.sealed.flatMap writes

/-- Journals that wait for nothing but the flush queue. -/
def Settled (view : T → TreeView M) (writes : M → List Write) (parts : List String)
    (ks : Keyspace T M) (journals : List SealedJournal) : Prop :=
  ∀ journal ∈ journals, ∀ p ∈ parts, ∀ lsn, journal.watermarks p = some lsn →
    ∃ v ∈ flushable writes (view (ks.tree p)), v.seqno = lsn

def SettledBut (view : T → TreeView M) (writes : M → List Write) (parts : List String) (n : Nat)
    (ks : Keyspace T M) : Prop :=
  ∃ old new, ks.sealed = old ++ new ∧ Settled view writes parts ks old ∧ new.length ≤ n

variable {view : T → TreeView M} {writes : M → List Write} {lib : TreeLib T M} {coding : TreeCoding}
  {parts partitions : List String} {ks ks' : Keyspace T M} {gone act : List Batch} {journals : List (List Batch)}
  {p name : String} {n : Nat}

section Rotation

theorem rotate_cases (lib : TreeLib T M) (name : String) (ks : Keyspace T M) :
    (lib.rotateMemtable (ks.tree name) = none ∧ rotateMemtable lib name ks = ks) ∨
      ∃ yanked memtable journal, lib.rotateMemtable (ks.tree name) = some (yanked, memtable) ∧
        (rotateMemtable lib name ks).tree = Function.update ks.tree name yanked ∧
        (rotateMemtable lib name ks).sealed = ks.sealed ++ [journal] := by
  rw [rotateMemtable]
  cases hrotate : lib.rotateMemtable (ks.tree name) with
  | none => exact .inl ⟨rfl, rfl⟩
  | some rotated => exact .inr ⟨rotated.1, rotated.2, _, rfl, rfl, rfl⟩

theorem rotate_active (hl : lib.Lawful view writes) (name p : String) (ks : Keyspace T M) :
    (view ((rotateMemtable lib name ks).tree p)).active =
      if p = name then [] else (view (ks.tree p)).active := by
  rcases rotate_cases lib name ks with ⟨hnone, hsame⟩ | ⟨yanked, memtable, journal, hsome, htree, -⟩
  · rw [hsame]
    split
    case isTrue h => rw [h, (hl.rotate_none _).mp hnone]
    case isFalse => rfl
  · rw [htree]
    split
    case isTrue h => rw [h, Function.update_self, (hl.rotate_some hsome).2]
    case isFalse h => rw [Function.update_of_ne h]

theorem rotate_flushable (hl : lib.Lawful view writes) {v : Write}
    (hv : v ∈ flushable writes (view (ks.tree p))) :
    v ∈ flushable writes (view ((rotateMemtable lib name ks).tree p)) := by
  rcases rotate_cases lib name ks with ⟨-, hsame⟩ | ⟨yanked, memtable, journal, hsome, htree, -⟩
  · rwa [hsame]
  · rw [htree]
    by_cases hp : p = name
    · subst hp
      rw [Function.update_self, (hl.rotate_some hsome).2, flushable, List.flatMap_append, ← List.append_assoc]
      exact List.mem_append_left _ hv
    · rwa [Function.update_of_ne hp]

theorem unstick_active (hl : lib.Lawful view writes) (names : List String) (ks : Keyspace T M) :
    (∀ p ∈ names, (view ((unstickFlushing lib names ks).tree p)).active = []) ∧
      ∀ p, (view (ks.tree p)).active = [] →
        (view ((unstickFlushing lib names ks).tree p)).active = [] := by
  induction names generalizing ks with
  | nil => exact ⟨fun p hp => absurd hp List.not_mem_nil, fun p hp => hp⟩
  | cons name names ih =>
      obtain ⟨hnames, hkeep⟩ := ih (rotateMemtable lib name ks)
      refine ⟨?_, ?_⟩
      · intro p hp
        rcases List.mem_cons.mp hp with rfl | hp
        · apply hkeep
          rw [rotate_active hl, if_pos rfl]
        · exact hnames p hp
      · intro p hp
        apply hkeep
        rw [rotate_active hl]
        split
        case isTrue => rfl
        case isFalse => exact hp

theorem run_unstick {events : List Event} (hrun : Run lib coding parts events ks) {names : List String}
    (hnames : ∀ name ∈ names, name ∈ parts) :
    Run lib coding parts (events ++ names.map Event.rotate) (unstickFlushing lib names ks) := by
  induction names generalizing ks events with
  | nil =>
      rw [List.map_nil, List.append_nil]
      exact hrun
  | cons name names ih =>
      have hone := hrun.then (.rotate name) (hnames name List.mem_cons_self) rfl
      have hrest := ih hone fun q hq => hnames q (List.mem_cons_of_mem _ hq)
      rw [List.append_assoc] at hrest
      exact hrest

end Rotation

section Steps

theorem run_inv (hc : coding.Lawful) (hl : lib.Lawful view writes) (hnodup : parts.Nodup)
    {events : List Event} (hrun : Run lib coding parts events ks) :
    ∃ gone journals act, Inv view writes coding parts ks gone journals act := by
  obtain ⟨_, gone, journals, act, _, -, hrefines⟩ := run_refines hc hl hnodup hrun
  exact ⟨gone, journals, act, hrefines.inv⟩

theorem Further.run {events more : List Event} (hrun : Run lib coding parts events ks)
    (h : Further lib coding parts ks more ks') : Run lib coding parts (events ++ more) ks' := by
  induction h with
  | here =>
      rw [List.append_nil]
      exact hrun
  | «then» _ event hadmissible hstep ih =>
      rw [← List.append_assoc]
      exact ih.then event hadmissible hstep

theorem Settled.mono {old : List SealedJournal} (h : Settled view writes parts ks old)
    (hkeep : ∀ p ∈ parts, ∀ v ∈ flushable writes (view (ks.tree p)),
      v ∈ flushable writes (view (ks'.tree p))) : Settled view writes parts ks' old := by
  intro journal hjournal p hp lsn hlsn
  obtain ⟨v, hv, hseqno⟩ := h journal hjournal p hp lsn hlsn
  exact ⟨v, hkeep p hp v hv, hseqno⟩

theorem flush_flushable (hl : lib.Lawful view writes) (h : Inv view writes coding parts ks gone journals act)
    (hname : name ∈ parts) (tasks : Nat) (p : String) :
    flushable writes (view ((flush lib name tasks ks).tree p)) =
      flushable writes (view (ks.tree p)) := by
  by_cases hp : p = name
  · subst hp
    have hsplit : (view (ks.tree p)).sealed = (ks.queue p).take tasks ++ (ks.queue p).drop tasks := by
      rw [List.take_append_drop, (h.partition p hname).queue]
    have hregister := hl.register hsplit
    rw [flush]
    simp only [Function.update_self]
    rw [hregister, flushable, flushable, hsplit, List.flatMap_append, List.append_assoc]
  · rw [flush]
    simp only [Function.update_of_ne hp]

/-- What is queued at some time is enough for the journals sealed until then. Only
journals sealed since may wait for more. -/
theorem SettledBut.step (hl : lib.Lawful view writes)
    (hinv : Inv view writes coding parts ks gone journals act)
    (h : SettledBut view writes parts n ks) {event : Event} (hadmissible : event.Admissible parts ks)
    (hstep : step lib coding parts ks event = .ok ks') (hcrash : isCrash event = false) :
    SettledBut view writes parts (n + [event].countP isRotate) ks' := by
  obtain ⟨old, new, hsealed, hold, hnew⟩ := h
  cases event with
  | commit items durability =>
      obtain rfl := Except.ok.inj hstep
      refine ⟨old, new, hsealed, hold.mono ?_, hnew⟩
      intro p hp v hv
      have hview := applyItems_view hl hp ⟨ks.seqno, items⟩ ks.tree
      rw [flushable]
      simp only [commit]
      rw [hview]
      exact hv
  | rotate name =>
      obtain rfl := Except.ok.inj hstep
      have hkept : Settled view writes parts (rotateMemtable lib name ks) old :=
        hold.mono fun p _ v => rotate_flushable hl
      rcases rotate_cases lib name ks with ⟨-, hsame⟩ | ⟨yanked, memtable, journal, -, -, hmore⟩
      · rw [hsame] at hkept ⊢
        exact ⟨old, new, hsealed, hkept, Nat.le_add_right_of_le hnew⟩
      · refine ⟨old, new ++ [journal], ?_, hkept, ?_⟩
        · rw [hmore, hsealed, List.append_assoc]
        · rw [List.length_append]
          exact Nat.add_le_add_right hnew 1
  | flush name tasks =>
      obtain rfl := Except.ok.inj hstep
      refine ⟨old, new, hsealed, hold.mono ?_, hnew⟩
      intro p _ v hv
      rwa [flush_flushable hl hinv hadmissible]
  | maintenance =>
      obtain rfl := Except.ok.inj hstep
      have hleft : (maintenance lib parts ks).sealed = (old ++ new).dropWhile (flushed lib parts ks.tree) := by
        rw [← hsealed]
        rfl
      rw [List.dropWhile_append] at hleft
      split at hleft
      · refine ⟨[], new.dropWhile (flushed lib parts ks.tree), hleft, ?_, ?_⟩
        · exact fun journal hjournal => absurd hjournal List.not_mem_nil
        · exact Nat.le_trans (List.dropWhile_suffix _).length_le hnew
      · refine ⟨old.dropWhile (flushed lib parts ks.tree), new, hleft, ?_, hnew⟩
        exact fun journal hjournal => hold journal ((List.dropWhile_suffix _).subset hjournal)
  | persist mode =>
      obtain rfl := Except.ok.inj hstep
      exact ⟨old, new, hsealed, hold, hnew⟩
  | crash cut zeros => cases hcrash

theorem SettledBut.further (hc : coding.Lawful) (hl : lib.Lawful view writes) (hnodup : parts.Nodup)
    {events more : List Event} (hrun : Run lib coding parts events ks)
    (h : SettledBut view writes parts 0 ks) (hmore : Further lib coding parts ks more ks')
    (hcrash : ∀ event ∈ more, isCrash event = false) :
    SettledBut view writes parts (more.countP isRotate) ks' := by
  induction hmore with
  | here => exact h
  | @«then» more ks' ks'' hmore event hadmissible hstep ih =>
      obtain ⟨gone, journals, act, hinv⟩ := run_inv hc hl hnodup (hmore.run hrun)
      have hbefore := ih fun e he => hcrash e (List.mem_append_left _ he)
      have hlast := hcrash event (List.mem_append_right _ List.mem_cons_self)
      rw [List.countP_append]
      exact hbefore.step hl hinv hadmissible hstep hlast

end Steps

section Draining

theorem Settled.flushed (hl : lib.Lawful view writes)
    (hinv : Inv view writes coding parts ks gone journals act) {old : List SealedJournal}
    (h : Settled view writes parts ks old) (hidle : ∀ p ∈ parts, ks.queue p = []) :
    ∀ journal ∈ old, flushed lib parts ks.tree journal = true := by
  intro journal hjournal
  apply List.all_eq_true.mpr
  intro p hp
  cases hlsn : journal.watermarks p with
  | none => rfl
  | some lsn =>
      obtain ⟨v, hv, hseqno⟩ := h journal hjournal p hp lsn hlsn
      have hempty : (view (ks.tree p)).sealed = [] := (hinv.partition p hp).queue.symm.trans (hidle p hp)
      rw [flushable, hempty, List.flatMap_nil, List.append_nil] at hv
      obtain ⟨m, hm, hle⟩ := le_highest hv
      rw [Option.all_some, hl.persistedSeqno, hm]
      exact decide_eq_true (hseqno ▸ hle)

theorem settled_unstick (hl : lib.Lawful view writes)
    (hinv : Inv view writes coding parts (unstickFlushing lib partitions ks) gone journals act)
    (hrest : ∀ p ∈ parts, p ∉ partitions → (view (ks.tree p)).active = []) :
    SettledBut view writes parts 0 (unstickFlushing lib partitions ks) := by
  obtain ⟨hlisted, hkeep⟩ := unstick_active hl partitions ks
  refine ⟨_, [], (List.append_nil _).symm, ?_, Nat.le_refl _⟩
  intro journal hjournal p hp lsn hlsn
  have hactive : (view ((unstickFlushing lib partitions ks).tree p)).active = [] := by
    by_cases hin : p ∈ partitions
    · exact hlisted p hin
    · exact hkeep p (hrest p hp hin)
  obtain ⟨v, hv, hseqno⟩ := hinv.awaited journal hjournal p hp lsn hlsn
  rw [← (hinv.partition p hp).contents, TreeView.contents, hactive, List.append_nil] at hv
  exact ⟨v, hv, hseqno⟩

theorem flush_all (names : List String) (hnames : ∀ name ∈ names, name ∈ parts) (ks : Keyspace T M) :
    ∃ more ks', (∀ event ∈ more, ∃ name tasks, event = .flush name tasks) ∧
      Further lib coding parts ks more ks' ∧ (∀ p ∈ names, ks'.queue p = []) := by
  induction names using List.reverseRecOn with
  | nil =>
      refine ⟨[], ks, fun event h => absurd h List.not_mem_nil, .here, ?_⟩
      exact fun p hp => absurd hp List.not_mem_nil
  | append_singleton names name ih =>
      obtain ⟨more, ks', hflushes, hmore, hempty⟩ :=
        ih fun q hq => hnames q (List.mem_append_left _ hq)
      have hname := hnames name (List.mem_append_right _ List.mem_cons_self)
      refine ⟨_, _, ?_, hmore.then (.flush name (ks'.queue name).length) hname rfl, ?_⟩
      · intro event hevent
        rcases List.mem_append.mp hevent with hold | hlast
        · exact hflushes event hold
        · exact ⟨name, _, List.mem_singleton.mp hlast⟩
      · intro p hp
        simp only [flush, List.take_length, List.drop_length]
        by_cases hsame : p = name
        · rw [hsame, Function.update_self]
        · rw [Function.update_of_ne hsame]
          rcases List.mem_append.mp hp with hp | hp
          · exact hempty p hp
          · exact absurd (List.mem_singleton.mp hp) hsame

/-- After the rotation of the listed partitions the flush workers and the maintenance get
rid of every journal that was sealed until then, whatever is written meanwhile, where no
other partition has a write in its active memtable. -/
theorem unstick_drains (hc : coding.Lawful) (hl : lib.Lawful view writes) (hnodup : parts.Nodup)
    {events : List Event} (hrun : Run lib coding parts events ks)
    (hlisted : ∀ p ∈ partitions, p ∈ parts)
    (hrest : ∀ p ∈ parts, p ∉ partitions → (view (ks.tree p)).active = []) :
    (∃ more ks', (∀ event ∈ more, ∃ name tasks, event = .flush name tasks) ∧
      Further lib coding parts (unstickFlushing lib partitions ks) more ks' ∧
        ∀ p ∈ parts, ks'.queue p = []) ∧
    ∀ more ks', Further lib coding parts (unstickFlushing lib partitions ks) more ks' →
      (∀ event ∈ more, isCrash event = false) → (∀ p ∈ parts, ks'.queue p = []) →
        journalCount (maintenance lib parts ks') ≤ 1 + more.countP isRotate := by
  have hunstuck := run_unstick hrun hlisted
  refine ⟨flush_all parts (fun _ h => h) _, ?_⟩
  intro more ks' hmore hcrash hidle
  obtain ⟨gone, journals, act, hinv⟩ := run_inv hc hl hnodup hunstuck
  obtain ⟨old, new, hsealed, hold, hnew⟩ :=
    (settled_unstick hl hinv hrest).further hc hl hnodup hunstuck hmore hcrash
  obtain ⟨gone', journals', act', hinv'⟩ := run_inv hc hl hnodup (hmore.run hunstuck)
  have hgone := hold.flushed hl hinv' hidle
  rw [journalCount, maintenance, hsealed, List.dropWhile_append_of_pos hgone, Nat.add_comm]
  exact Nat.add_le_add_left (Nat.le_trans (List.dropWhile_suffix _).length_le hnew) 1

/-- A store that does not list the partition `q`, which nothing was written to. -/
theorem unstick_drains_plain : ∃ ks : Keyspace (TreeView (List Write)) (List Write),
    Run plainTrees plainCoding ["p", "q"] [.commit plainBatch.items none] ks ∧
    (∃ more ks', (∀ event ∈ more, ∃ name tasks, event = .flush name tasks) ∧
      Further plainTrees plainCoding ["p", "q"] (unstickFlushing plainTrees ["p"] ks) more ks' ∧
        ∀ p ∈ ["p", "q"], ks'.queue p = []) ∧
    ∀ more ks', Further plainTrees plainCoding ["p", "q"] (unstickFlushing plainTrees ["p"] ks) more ks' →
      (∀ event ∈ more, isCrash event = false) → (∀ p ∈ ["p", "q"], ks'.queue p = []) →
        journalCount (maintenance plainTrees ["p", "q"] ks') ≤ 1 + more.countP isRotate := by
  have hparts : ∀ item ∈ plainBatch.items, item.partition ∈ ["p", "q"] := by simp [plainBatch]
  have hrun : Run plainTrees plainCoding ["p", "q"] [.commit plainBatch.items none]
      (commit plainTrees plainCoding ["p", "q"] plainBatch.items none (createNew plainTrees)) :=
    Run.created.then (.commit plainBatch.items none)
      ⟨plainBatch_fits plainBatch List.mem_cons_self, hparts⟩ rfl
  refine ⟨_, hrun, unstick_drains plainCoding_lawful plainTrees_lawful (by decide) hrun (by simp) ?_⟩
  intro p hp hnot
  rcases List.mem_pair.mp hp with rfl | rfl
  · exact absurd List.mem_cons_self hnot
  · rfl

end Draining

section Stuck

theorem active_later (h : Inv view writes coding parts ks gone journals act) (hp : p ∈ parts)
    (hidle : ks.queue p = []) {v w : Write} (hv : v ∈ (view (ks.tree p)).segments)
    (hw : w ∈ (view (ks.tree p)).active) : v.seqno < w.seqno := by
  have hpartition := h.partition p hp
  have hempty : (view (ks.tree p)).sealed = [] := hpartition.queue.symm.trans hidle
  obtain ⟨k, -, hcut⟩ := hpartition.aligned [] List.nil_prefix
  rw [List.flatMap_nil, List.append_nil] at hcut
  have hsplit : gone ++ journals.flatten ++ act =
      gone ++ (journals.take k).flatten ++ ((journals.drop k).flatten ++ act) := by
    conv_lhs => rw [← List.take_append_drop k journals]
    simp only [List.flatten_append, List.append_assoc]
  have hcontents := hpartition.contents
  rw [TreeView.contents, hempty, List.flatMap_nil, List.nil_append, hsplit, versions_append p _ (_ ++ act),
    hcut] at hcontents
  have hrest := List.append_cancel_left hcontents
  have hhistory := h.history
  rw [hsplit] at hhistory
  rw [hcut] at hv
  rw [hrest] at hw
  exact hhistory.later hv hw

/-- Where nothing is queued, flushes change no tree. -/
structure Idle (view : T → TreeView M) (lib : TreeLib T M) (parts : List String)
    (ks ks' : Keyspace T M) : Prop where
  queue : ∀ p ∈ parts, ks'.queue p = []
  tree : ∀ p ∈ parts, view (ks'.tree p) = view (ks.tree p)
  left : (maintenance lib parts ks').sealed = (maintenance lib parts ks).sealed

theorem flushed_congr (hl : lib.Lawful view writes)
    (htree : ∀ p ∈ parts, view (ks'.tree p) = view (ks.tree p)) :
    flushed lib parts ks'.tree = flushed lib parts ks.tree := by
  funext journal
  rw [flushed, flushed, Bool.eq_iff_iff, List.all_eq_true, List.all_eq_true]
  apply forall₂_congr
  intro p hp
  rw [hl.persistedSeqno, hl.persistedSeqno, htree p hp]

theorem Idle.step (hl : lib.Lawful view writes) (hinv : Inv view writes coding parts ks' gone journals act)
    (h : Idle view lib parts ks ks') {ks'' : Keyspace T M} {event : Event}
    (hadmissible : event.Admissible parts ks') (hstep : step lib coding parts ks' event = .ok ks'')
    (hflushing : isFlushing event = true) : Idle view lib parts ks ks'' := by
  cases event with
  | flush name tasks =>
      obtain rfl := Except.ok.inj hstep
      have hname : name ∈ parts := hadmissible
      have hempty : (view (ks'.tree name)).sealed = [] :=
        (hinv.partition name hname).queue.symm.trans (h.queue name hname)
      have htree : ∀ p ∈ parts, view ((flush lib name tasks ks').tree p) = view (ks'.tree p) := by
        intro p _
        rw [flush]
        dsimp only
        by_cases hp : p = name
        · subst hp
          rw [Function.update_self, h.queue p hname, List.take_nil,
            hl.register (show _ = [] ++ [] from hempty), List.flatMap_nil, List.append_nil, ← hempty]
        · rw [Function.update_of_ne hp]
      refine ⟨?_, fun p hp => (htree p hp).trans (h.tree p hp), ?_⟩
      · intro p hp
        rw [flush]
        dsimp only
        by_cases hsame : p = name
        · rw [hsame, Function.update_self, h.queue name hname, List.drop_nil]
        · rw [Function.update_of_ne hsame, h.queue p hp]
      · rw [← h.left, maintenance, maintenance, flushed_congr hl htree]
        rfl
  | maintenance =>
      obtain rfl := Except.ok.inj hstep
      refine ⟨h.queue, h.tree, ?_⟩
      rw [← h.left]
      exact List.dropWhile_idempotent _ _
  | commit items durability => cases hflushing
  | rotate name => cases hflushing
  | persist mode => cases hflushing
  | crash cut zeros => cases hflushing

theorem idle_further (hc : coding.Lawful) (hl : lib.Lawful view writes) (hnodup : parts.Nodup)
    {events more : List Event} (hrun : Run lib coding parts events ks)
    (hidle : ∀ p ∈ parts, ks.queue p = []) (hmore : Further lib coding parts ks more ks')
    (hflushing : ∀ event ∈ more, isFlushing event = true) : Idle view lib parts ks ks' := by
  induction hmore with
  | here => exact ⟨hidle, fun p _ => rfl, rfl⟩
  | @«then» more ks' ks'' hmore event hadmissible hstep ih =>
      obtain ⟨gone, journals, act, hinv⟩ := run_inv hc hl hnodup (hmore.run hrun)
      have hbefore := ih fun e he => hflushing e (List.mem_append_left _ he)
      exact hbefore.step hl hinv hadmissible hstep
        (hflushing event (List.mem_append_right _ List.mem_cons_self))

/-- With nothing queued, maintenance leaves a sealed journal exactly where a partition
still has a write of it in its active memtable only. Flushing alone never gets further. -/
theorem journals_stay_iff (hc : coding.Lawful) (hl : lib.Lawful view writes) (hnodup : parts.Nodup)
    {events : List Event} (hrun : Run lib coding parts events ks) (hidle : ∀ p ∈ parts, ks.queue p = []) :
    (journalCount (maintenance lib parts ks) = 1 ↔ ∀ journal ∈ ks.sealed, ∀ p ∈ parts, ∀ lsn,
      journal.watermarks p = some lsn → ∀ w ∈ (view (ks.tree p)).active, lsn < w.seqno) ∧
    ∀ more ks', Further lib coding parts ks more ks' → (∀ event ∈ more, isFlushing event = true) →
      (maintenance lib parts ks').sealed = (maintenance lib parts ks).sealed := by
  refine ⟨?_, fun more ks' hmore hflushing => (idle_further hc hl hnodup hrun hidle hmore hflushing).left⟩
  obtain ⟨gone, journals, act, hinv⟩ := run_inv hc hl hnodup hrun
  rw [journalCount, Nat.add_eq_right, List.length_eq_zero_iff, maintenance, List.dropWhile_eq_nil_iff]
  constructor
  · intro h journal hjournal p hp lsn hlsn w hw
    have hall := List.all_eq_true.mp (h journal hjournal) p hp
    rw [hlsn, Option.all_some, hl.persistedSeqno] at hall
    cases hn : highest (view (ks.tree p)).segments with
    | none =>
        rw [hn] at hall
        cases hall
    | some n =>
        rw [hn] at hall
        obtain ⟨⟨v, hv, rfl⟩, -⟩ := highest_eq_some.mp hn
        exact Nat.lt_of_le_of_lt (of_decide_eq_true hall) (active_later hinv hp (hidle p hp) hv hw)
  · intro h
    refine Settled.flushed hl hinv ?_ hidle
    intro journal hjournal p hp lsn hlsn
    obtain ⟨v, hv, hseqno⟩ := hinv.awaited journal hjournal p hp lsn hlsn
    rw [← (hinv.partition p hp).contents, TreeView.contents, ← List.append_assoc] at hv
    rcases List.mem_append.mp hv with hv | hv
    · exact ⟨v, hv, hseqno⟩
    · exact absurd hseqno (Nat.ne_of_gt (h journal hjournal p hp lsn hlsn v hv))

def plainItems : List Item := [⟨"p", [1], [2], .value⟩, ⟨"q", [1], [2], .value⟩]

/-- A partition that is written and flushed, next to one that is not flushed: the journal
with the batch stays. -/
theorem journals_stay_iff_plain : ∃ ks : Keyspace (TreeView (List Write)) (List Write),
    Run plainTrees plainCoding ["p", "q"] [.commit plainItems none, .rotate "p", .flush "p" 1] ks ∧
    journalCount (maintenance plainTrees ["p", "q"] ks) = 2 ∧
    (journalCount (maintenance plainTrees ["p", "q"] ks) = 1 ↔ ∀ journal ∈ ks.sealed, ∀ p ∈ ["p", "q"],
      ∀ lsn, journal.watermarks p = some lsn → ∀ w ∈ (ks.tree p).active, lsn < w.seqno) ∧
    ∀ more ks', Further plainTrees plainCoding ["p", "q"] ks more ks' →
      (∀ event ∈ more, isFlushing event = true) →
        (maintenance plainTrees ["p", "q"] ks').sealed = (maintenance plainTrees ["p", "q"] ks).sealed := by
  have hfits : (⟨0, plainItems⟩ : Batch).Fits := by
    refine ⟨by decide, by decide, ?_⟩
    intro item hitem
    rcases List.mem_pair.mp hitem with rfl | rfl <;> exact ⟨by decide +kernel, by decide, by decide⟩
  have hparts : ∀ item ∈ plainItems, item.partition ∈ ["p", "q"] := by simp [plainItems]
  have hone : Run plainTrees plainCoding ["p", "q"] [.commit plainItems none]
      (commit plainTrees plainCoding ["p", "q"] plainItems none (createNew plainTrees)) :=
    Run.created.then (.commit plainItems none) ⟨hfits, hparts⟩ rfl
  have htwo := hone.then (.rotate "p") List.mem_cons_self rfl
  have hthree := htwo.then (.flush "p" 1) List.mem_cons_self rfl
  refine ⟨_, hthree, by decide +kernel, ?_⟩
  exact journals_stay_iff plainCoding_lawful plainTrees_lawful (by decide) hthree (by decide +kernel)

end Stuck

end Nightfrost.JournalEviction
