import Nightfrost.FjallKeyspace
import Nightfrost.Journal

namespace Nightfrost.CrashSafety

open ByteOrder Domain ExceptFold JournalFormat JournalReader Versions FjallKeyspace Journal

section Histories

variable {parts : List String}

def given (item : Item) : Option Bytes := if item.valueType = .value then some item.value else none

def version (seqno : Nat) (item : Item) : Write := ⟨item.key, given item, seqno⟩

def numbered (batches : List Batch) : List (Nat × Item) :=
  batches.flatMap fun batch => batch.items.map (batch.seqno, ·)

def versions (p : String) (batches : List Batch) : List Write :=
  ((numbered batches).filter (·.2.partition = p)).map fun w => version w.1 w.2

theorem versions_append (p : String) (batches more : List Batch) :
    versions p (batches ++ more) = versions p batches ++ versions p more := by
  simp [versions, numbered]

@[simp] theorem versions_nil (p : String) : versions p [] = [] := rfl

theorem mem_versions {p : String} {batches : List Batch} {w : Write} : w ∈ versions p batches ↔
    ∃ batch ∈ batches, ∃ item ∈ batch.items, item.partition = p ∧ version batch.seqno item = w := by
  simp only [versions, numbered, List.mem_map, List.mem_filter, List.mem_flatMap, Prod.exists,
    decide_eq_true_eq]
  constructor
  · rintro ⟨seqno, item, ⟨⟨batch, hbatch, item', hitem, heq⟩, hp⟩, hw⟩
    cases heq
    exact ⟨batch, hbatch, item, hitem, hp, hw⟩
  · rintro ⟨batch, hbatch, item, hitem, hp, hw⟩
    exact ⟨batch.seqno, item, ⟨⟨batch, hbatch, item, hitem, rfl⟩, hp⟩, hw⟩

structure History (parts : List String) (history : List Batch) (seqno : Nat) : Prop where
  increasing : history.Pairwise (·.seqno < ·.seqno)
  below : ∀ batch ∈ history, batch.seqno < seqno
  fits : ∀ batch ∈ history, batch.Fits
  nonempty : ∀ batch ∈ history, batch.items ≠ []
  parts : ∀ batch ∈ history, ∀ item ∈ batch.items, item.partition ∈ parts

variable {history more : List Batch} {seqno : Nat} {p : String} {v w : Write}

theorem History.mono (h : History parts history seqno) {seqno' : Nat} (hle : seqno ≤ seqno') :
    History parts history seqno' :=
  ⟨h.increasing, fun batch hb => Nat.lt_of_lt_of_le (h.below batch hb) hle, h.fits, h.nonempty, h.parts⟩

theorem History.concat (h : History parts history seqno) {items : List Item} (hitems : items ≠ [])
    (hfits : (⟨seqno, items⟩ : Batch).Fits) (hparts : ∀ item ∈ items, item.partition ∈ parts) :
    History parts (history ++ [⟨seqno, items⟩]) (seqno + 1) := by
  refine ⟨?_, ?_, ?_, ?_, ?_⟩
  · rw [List.pairwise_append]
    refine ⟨h.increasing, List.pairwise_singleton _ _, ?_⟩
    intro batch hb last hlast
    obtain rfl := List.mem_singleton.mp hlast
    exact h.below batch hb
  · simpa [or_imp, forall_and] using fun batch hb => Nat.lt_succ_of_lt (h.below batch hb)
  · simpa [or_imp, forall_and] using ⟨h.fits, hfits⟩
  · simpa [or_imp, forall_and] using ⟨h.nonempty, hitems⟩
  · simpa [or_imp, forall_and] using ⟨h.parts, hparts⟩

theorem History.left (h : History parts (history ++ more) seqno) : History parts history seqno :=
  ⟨(List.pairwise_append.mp h.increasing).1, fun b hb => h.below b (List.mem_append_left _ hb),
    fun b hb => h.fits b (List.mem_append_left _ hb), fun b hb => h.nonempty b (List.mem_append_left _ hb),
    fun b hb => h.parts b (List.mem_append_left _ hb)⟩

theorem History.later (h : History parts (history ++ more) seqno) (hv : v ∈ versions p history)
    (hw : w ∈ versions p more) : v.seqno < w.seqno := by
  obtain ⟨batch, hbatch, item, -, -, rfl⟩ := mem_versions.mp hv
  obtain ⟨batch', hbatch', item', -, -, rfl⟩ := mem_versions.mp hw
  exact (List.pairwise_append.mp h.increasing).2.2 batch hbatch batch' hbatch'

/-- The store that a keyspace stands for: what each key of each partition was given last. -/
abbrev Store := String → Bytes → Option Bytes

def put (store : Store) (item : Item) : Store :=
  Function.update store item.partition (Function.update (store item.partition) item.key (given item))

def putAll (store : Store) (items : List Item) : Store := items.foldl put store

def emptyStore : Store := fun _ _ => none

theorem foldl_putAll (batches : List Batch) (store : Store) :
    (batches.map (·.items)).foldl putAll store = (numbered batches).foldl (fun s w => put s w.2) store := by
  rw [numbered, List.foldl_flatMap, List.foldl_map]
  congr 1
  funext store batch
  rw [putAll, List.foldl_map]

theorem numbered_sorted (h : History parts history seqno) :
    (numbered history).Pairwise (·.1 ≤ ·.1) := by
  rw [numbered, List.pairwise_flatMap]
  constructor
  · intro batch _
    rw [List.pairwise_map]
    exact List.pairwise_of_forall fun _ _ => Nat.le_refl _
  · apply h.increasing.imp
    intro batch batch' hlt w hw w' hw'
    obtain ⟨item, -, rfl⟩ := List.mem_map.mp hw
    obtain ⟨item', -, rfl⟩ := List.mem_map.mp hw'
    exact Nat.le_of_lt hlt

theorem newest_numbered {ws : List (Nat × Item)} (hsorted : ws.Pairwise (·.1 ≤ ·.1)) (p : String)
    (key : Bytes) :
    (newest ((ws.filter (·.2.partition = p)).map fun w => version w.1 w.2) key).bind (·.value) =
      ws.foldl (fun s w => put s w.2) emptyStore p key := by
  induction ws using List.reverseRecOn with
  | nil => rfl
  | append_singleton ws w ih =>
      obtain ⟨hws, -, hlast⟩ := List.pairwise_append.mp hsorted
      rw [List.foldl_append, List.foldl_cons, List.foldl_nil, List.filter_append, List.map_append, put]
      by_cases hp : w.2.partition = p
      · have hone : [w].filter (·.2.partition = p) = [w] := by simp [hp]
        rw [hone, List.map_singleton, newest_concat]
        · subst hp
          rw [Function.update_self]
          by_cases hkey : w.2.key = key
          · subst hkey
            rw [Function.update_self]
            simp [version]
          · rw [Function.update_of_ne (Ne.symm hkey), ← ih hws]
            simp [version, hkey]
        · intro v hv
          obtain ⟨w', hw', rfl⟩ := List.mem_map.mp hv
          exact hlast w' (List.mem_of_mem_filter hw') w List.mem_cons_self
      · have hnone : [w].filter (·.2.partition = p) = [] := by simp [hp]
        rw [hnone, List.map_nil, List.append_nil, ih hws, Function.update_of_ne (Ne.symm hp)]

/-- Reading the newest version of a key gives what the batches left there. -/
theorem History.newest (h : History parts history seqno) (p : String) (key : Bytes) :
    (newest (versions p history) key).bind (·.value) =
      (history.map (·.items)).foldl putAll emptyStore p key := by
  rw [foldl_putAll, versions, newest_numbered (numbered_sorted h)]

end Histories

section Replay

variable {T M : Type} {lib : TreeLib T M} {view : T → TreeView M} {writes : M → List Write}
  {coding : TreeCoding} {parts : List String} {p : String}

theorem write_view (hl : lib.Lawful view writes) (seqno : Nat) (item : Item) (t : T) :
    view (lib.write seqno item t) =
      { view t with active := (view t).active ++ [version seqno item] } := by
  rw [TreeLib.write]
  cases htype : item.valueType with
  | value => simpa [version, given, htype] using hl.insert item.key item.value seqno t
  | tombstone => simpa [version, given, htype] using hl.remove item.key seqno t
  | weakTombstone => simpa [version, given, htype] using hl.removeWeak item.key seqno t

theorem applyItem_view (hl : lib.Lawful view writes) (hp : p ∈ parts) (seqno : Nat)
    (tree : String → T) (item : Item) :
    view (applyItem lib parts seqno tree item p) =
      { view (tree p) with
        active := (view (tree p)).active ++ if item.partition = p then [version seqno item] else [] } := by
  rw [applyItem]
  by_cases hitem : item.partition = p
  · subst hitem
    simp [hp, write_view hl]
  · by_cases hparts : item.partition ∈ parts
    · simp [hparts, hitem, Function.update_of_ne (Ne.symm hitem)]
    · simp [hparts, hitem]

theorem numbered_one (batch : Batch) : numbered [batch] = batch.items.map (batch.seqno, ·) := by
  simp [numbered]

theorem versions_one (p : String) (batch : Batch) : versions p [batch] =
    batch.items.flatMap fun item => if item.partition = p then [version batch.seqno item] else [] := by
  rw [versions, numbered_one]
  induction batch.items with
  | nil => rfl
  | cons item items ih =>
      rw [List.map_cons, List.flatMap_cons, ← ih]
      by_cases hitem : item.partition = p
      · simp [hitem]
      · simp [hitem]

theorem applyItems_view (hl : lib.Lawful view writes) (hp : p ∈ parts) (batch : Batch)
    (tree : String → T) :
    view (batch.items.foldl (applyItem lib parts batch.seqno) tree p) =
      { view (tree p) with active := (view (tree p)).active ++ versions p [batch] } := by
  rw [versions_one]
  induction batch.items generalizing tree with
  | nil => simp
  | cons item items ih =>
      rw [List.foldl_cons, ih, applyItem_view hl hp, List.flatMap_cons, List.append_assoc]

theorem applyBatches_view (hl : lib.Lawful view writes) (hp : p ∈ parts) (batches : List Batch)
    (tree : String → T) :
    view (batches.foldl (fun tree batch => batch.items.foldl (applyItem lib parts batch.seqno) tree) tree p) =
      { view (tree p) with active := (view (tree p)).active ++ versions p batches } := by
  induction batches generalizing tree with
  | nil => simp
  | cons batch batches ih =>
      rw [List.foldl_cons, ih, applyItems_view hl hp, List.append_assoc, ← versions_append,
        List.singleton_append]

theorem replayItems_view (hl : lib.Lawful view writes) (hp : p ∈ parts) (batch : Batch)
    (state : (String → T) × Watermarks) {vs : List Write} (hmark : state.2 p = highest vs) :
    view ((replayBatch lib parts state batch).1 p) =
        { view (state.1 p) with active := (view (state.1 p)).active ++ versions p [batch] } ∧
      (replayBatch lib parts state batch).2 p = highest (vs ++ versions p [batch]) := by
  rw [versions_one, replayBatch]
  induction batch.items generalizing state vs with
  | nil => simpa using hmark
  | cons item items ih =>
      have hitem : (replayItem lib parts batch.seqno state item).2 p =
          highest (vs ++ if item.partition = p then [version batch.seqno item] else []) := by
        rw [replayItem]
        by_cases hitem : item.partition = p
        · subst hitem
          simp only [hp, if_true, Function.update_self, hmark, highest_concat]
          rfl
        · by_cases hparts : item.partition ∈ parts
          · simpa [hparts, hitem, Function.update_of_ne (Ne.symm hitem)] using hmark
          · simpa [hparts, hitem] using hmark
      have hview : view ((replayItem lib parts batch.seqno state item).1 p) = _ :=
        applyItem_view hl hp batch.seqno state.1 item
      obtain ⟨htree, hmarks⟩ := ih _ hitem
      rw [List.foldl_cons, List.flatMap_cons]
      constructor
      · rw [htree, hview, List.append_assoc]
      · rw [hmarks, List.append_assoc]

theorem replay_view (hl : lib.Lawful view writes) (hp : p ∈ parts) (batches : List Batch)
    (state : (String → T) × Watermarks) {vs : List Write} (hmark : state.2 p = highest vs) :
    view ((batches.foldl (replayBatch lib parts) state).1 p) =
        { view (state.1 p) with active := (view (state.1 p)).active ++ versions p batches } ∧
      (batches.foldl (replayBatch lib parts) state).2 p = highest (vs ++ versions p batches) := by
  induction batches generalizing state vs with
  | nil => simpa using hmark
  | cons batch batches ih =>
      obtain ⟨hview, hmarks⟩ := replayItems_view hl hp batch state hmark
      obtain ⟨htree, hall⟩ := ih _ hmarks
      have hsplit : versions p (batch :: batches) = versions p [batch] ++ versions p batches := by
        rw [← versions_append, List.singleton_append]
      rw [List.foldl_cons, hsplit]
      constructor
      · rw [htree, hview, List.append_assoc]
      · rw [hall, List.append_assoc]

end Replay

section Invariant

variable {T M : Type} (view : T → TreeView M) (writes : M → List Write)

def IsCut (p : String) (gone : List Batch) (journals : List (List Batch)) (vs : List Write) : Prop :=
  ∃ k ≤ journals.length, vs = versions p (gone ++ (journals.take k).flatten)

/-- What a tree of the keyspace and its flush queue hold: the batches in journals that
are gone, in sealed journals and in the active one. Segments and sealed memtables end
where a journal does. -/
structure Partition (p : String) (t : T) (queue : List M) (gone : List Batch)
    (journals : List (List Batch)) (act : List Batch) : Prop where
  queue : queue = (view t).sealed
  contents : (view t).contents writes = versions p (gone ++ journals.flatten ++ act)
  aligned : ∀ ms, ms <+: (view t).sealed →
    IsCut p gone journals ((view t).segments ++ ms.flatMap writes)

/-- A sealed journal and the batches in it: each write is in a segment, or the journal
waits for it. -/
structure Sealed (coding : TreeCoding) (parts : List String) (tree : String → T)
    (journal : SealedJournal) (batches : List Batch) : Prop where
  file : ∃ zeros, journal.file = encodeAll coding batches ++ List.replicate zeros 0
  covers : ∀ p ∈ parts, ∀ v ∈ versions p batches, v ∈ (view (tree p)).segments ∨
    ∃ lsn, journal.watermarks p = some lsn ∧ v.seqno ≤ lsn

structure Inv (coding : TreeCoding) (parts : List String) (ks : Keyspace T M) (gone : List Batch)
    (journals : List (List Batch)) (act : List Batch) : Prop where
  history : History parts (gone ++ journals.flatten ++ act) ks.seqno
  partition : ∀ p ∈ parts, Partition view writes p (ks.tree p) (ks.queue p) gone journals act
  sealed : List.Forall₂ (Sealed view coding parts ks.tree) ks.sealed journals
  active : ks.writer.written = encodeAll coding act
  awaited : ∀ journal ∈ ks.sealed, ∀ p ∈ parts, ∀ lsn, journal.watermarks p = some lsn →
    ∃ v ∈ versions p (gone ++ journals.flatten ++ act), v.seqno = lsn

variable {view writes} {lib : TreeLib T M} {coding : TreeCoding} {parts : List String}
  {ks ks' : Keyspace T M} {gone act : List Batch} {journals : List (List Batch)} {p name : String}

theorem Sealed.mono {tree tree' : String → T} {journal : SealedJournal} {batches : List Batch}
    (h : Sealed view coding parts tree journal batches)
    (hsegments : ∀ p ∈ parts, ∀ v ∈ (view (tree p)).segments, v ∈ (view (tree' p)).segments) :
    Sealed view coding parts tree' journal batches :=
  ⟨h.file, fun p hp v hv => (h.covers p hp v hv).imp_left (hsegments p hp v)⟩

theorem Inv.get (hl : lib.Lawful view writes) (h : Inv view writes coding parts ks gone journals act)
    (hp : p ∈ parts) (key : Bytes) : lib.get (ks.tree p) key =
      ((gone ++ journals.flatten ++ act).map (·.items)).foldl putAll emptyStore p key := by
  rw [hl.get, (h.partition p hp).contents, h.history.newest]

theorem inv_createNew (hl : lib.Lawful view writes) :
    Inv view writes coding parts (createNew lib) [] [] [] where
  history := ⟨List.Pairwise.nil, by simp, by simp, by simp, by simp⟩
  partition := by
    intro p _
    refine ⟨?_, ?_, ?_⟩
    · rw [createNew, hl.create]
    · rw [createNew, hl.create]
      rfl
    · intro ms hms
      rw [createNew, hl.create] at hms ⊢
      obtain rfl := List.prefix_nil.mp hms
      exact ⟨0, Nat.le_refl _, rfl⟩
  sealed := .nil
  active := rfl
  awaited := fun journal hjournal => absurd hjournal List.not_mem_nil

theorem writeBatch_some {items : List Item} {seqno : Nat} (hitems : items ≠ []) :
    writeBatch coding items seqno = encodeAll coding [⟨seqno, items⟩] := by
  have heq := @writeBatch_eq coding ⟨seqno, items⟩
  rwa [if_neg hitems, ← encodeAll_singleton] at heq

theorem written_commit (items : List Item) (durability : Option PersistMode) (ks : Keyspace T M) :
    (commit lib coding parts items durability ks).writer.written =
      ks.writer.written ++ writeBatch coding items ks.seqno := by
  rcases durability with _ | mode
  · rfl
  · cases mode <;> rfl

theorem Inv.commit_nil (h : Inv view writes coding parts ks gone journals act)
    (durability : Option PersistMode) :
    Inv view writes coding parts (commit lib coding parts [] durability ks) gone journals act := by
  refine ⟨h.history.mono (Nat.le_succ _), h.partition, h.sealed, ?_, h.awaited⟩
  have hnone : writeBatch coding [] ks.seqno = [] := rfl
  rw [written_commit, hnone, List.append_nil, h.active]

theorem Inv.commit (hl : lib.Lawful view writes) (h : Inv view writes coding parts ks gone journals act)
    {items : List Item} (hitems : items ≠ []) (durability : Option PersistMode)
    (hfits : (⟨ks.seqno, items⟩ : Batch).Fits) (hparts : ∀ item ∈ items, item.partition ∈ parts) :
    Inv view writes coding parts (FjallKeyspace.commit lib coding parts items durability ks) gone journals
      (act ++ [⟨ks.seqno, items⟩]) := by
  have hview : ∀ p ∈ parts, view ((FjallKeyspace.commit lib coding parts items durability ks).tree p) =
      { view (ks.tree p) with
        active := (view (ks.tree p)).active ++ versions p [⟨ks.seqno, items⟩] } :=
    fun p hp => applyItems_view hl hp ⟨ks.seqno, items⟩ ks.tree
  refine ⟨?_, ?_, ?_, ?_, ?_⟩
  · rw [← List.append_assoc]
    exact h.history.concat hitems hfits hparts
  · intro p hp
    obtain ⟨hqueue, hcontents, haligned⟩ := h.partition p hp
    refine ⟨?_, ?_, ?_⟩
    · rw [hview p hp]
      exact hqueue
    · rw [hview p hp, ← List.append_assoc, versions_append, ← hcontents]
      simp only [TreeView.contents, List.append_assoc]
    · rw [hview p hp]
      exact haligned
  · refine h.sealed.imp fun _ _ hsealed => hsealed.mono ?_
    intro p hp v hv
    rw [hview p hp]
    exact hv
  · rw [written_commit, writeBatch_some hitems, h.active, encodeAll_append]
  · intro journal hjournal p hp lsn hlsn
    obtain ⟨v, hv, hseqno⟩ := h.awaited journal hjournal p hp lsn hlsn
    refine ⟨v, ?_, hseqno⟩
    rw [← List.append_assoc, versions_append]
    exact List.mem_append_left _ hv

theorem rotate_none (hnone : lib.rotateMemtable (ks.tree name) = none) :
    rotateMemtable lib name ks = ks := by
  rw [rotateMemtable, hnone]

theorem IsCut.snoc {vs : List Write} (h : IsCut p gone journals vs) (bs : List Batch) :
    IsCut p gone (journals ++ [bs]) vs := by
  obtain ⟨k, hk, rfl⟩ := h
  refine ⟨k, ?_, ?_⟩
  · rw [List.length_append]
    exact Nat.le_add_right_of_le hk
  · rw [List.take_append_of_le_length hk]

theorem isCut_all (p : String) (gone : List Batch) (journals : List (List Batch)) :
    IsCut p gone journals (versions p (gone ++ journals.flatten)) :=
  ⟨journals.length, Nat.le_refl _, by rw [List.take_length]⟩

theorem flatten_snoc (journals : List (List Batch)) (act : List Batch) :
    (journals ++ [act]).flatten = journals.flatten ++ act := by simp

theorem Inv.rotate (hl : lib.Lawful view writes) (h : Inv view writes coding parts ks gone journals act)
    {yanked : T} {memtable : M}
    (hsome : lib.rotateMemtable (ks.tree name) = some (yanked, memtable)) :
    Inv view writes coding parts (rotateMemtable lib name ks) gone (journals ++ [act]) [] ∧
      (rotateMemtable lib name ks).writer = .createNew := by
  obtain ⟨hwrites, hyanked⟩ := hl.rotate_some hsome
  rw [rotateMemtable, hsome]
  have hmemtables : ∀ p, (view (Function.update ks.tree name yanked p)).sealed.flatMap writes ++
      (view (Function.update ks.tree name yanked p)).active =
        (view (ks.tree p)).sealed.flatMap writes ++ (view (ks.tree p)).active := by
    intro p
    by_cases hname : p = name
    · subst hname
      rw [Function.update_self, hyanked]
      simp [hwrites]
    · rw [Function.update_of_ne hname]
  refine ⟨⟨?_, ?_, ?_, rfl, ?_⟩, rfl⟩
  · rw [flatten_snoc, ← List.append_assoc, List.append_nil]
    exact h.history
  · intro p hp
    obtain ⟨hqueue, hcontents, haligned⟩ := h.partition p hp
    have hall : versions p (gone ++ (journals ++ [act]).flatten ++ []) = (view (ks.tree p)).contents writes := by
      rw [hcontents, flatten_snoc, List.append_nil, List.append_assoc]
    by_cases hname : p = name
    · subst hname
      simp only [Function.update_self]
      have hsame : (view yanked).contents writes = (view (ks.tree p)).contents writes := by
        rw [hyanked]
        simp [TreeView.contents, hwrites]
      refine ⟨?_, hsame.trans hall.symm, ?_⟩
      · rw [hyanked, hqueue]
      · intro ms hms
        rw [hyanked] at hms ⊢
        rcases List.prefix_concat_iff.mp hms with rfl | hms
        · have hcut := isCut_all p gone (journals ++ [act])
          rw [List.append_nil] at hall
          rw [hall, ← hsame, hyanked] at hcut
          simpa [TreeView.contents] using hcut
        · exact (haligned ms hms).snoc act
    · simp only [Function.update_of_ne hname]
      exact ⟨hqueue, hall.symm, fun ms hms => (haligned ms hms).snoc act⟩
  · have hsegments : ∀ p, (view (Function.update ks.tree name yanked p)).segments =
        (view (ks.tree p)).segments := by
      intro p
      by_cases hname : p = name
      · subst hname
        rw [Function.update_self, hyanked]
      · rw [Function.update_of_ne hname]
    have hkeep : ∀ p ∈ parts, ∀ v ∈ (view (ks.tree p)).segments,
        v ∈ (view (Function.update ks.tree name yanked p)).segments := by
      intro p _ v hv
      rwa [hsegments]
    refine List.rel_append (h.sealed.imp fun _ _ hsealed => hsealed.mono hkeep) (.cons ⟨⟨ks.writer.padding, ?_⟩, ?_⟩ .nil)
    · rw [← h.active]
      rfl
    · intro p hp v hv
      have hmem : v ∈ (view (ks.tree p)).contents writes := by
        rw [(h.partition p hp).contents, versions_append]
        exact List.mem_append_right _ hv
      rcases List.mem_append.mp hmem with hseg | hmemtable
      · exact .inl (by rwa [hsegments])
      · rw [← hmemtables p] at hmemtable
        obtain ⟨lsn, hlsn, hle⟩ := le_highest hmemtable
        exact .inr ⟨lsn, (hl.highestMemtableSeqno _).trans hlsn, hle⟩
  · intro journal hjournal p hp lsn hlsn
    rw [flatten_snoc, ← List.append_assoc, List.append_nil]
    rcases List.mem_append.mp hjournal with hold | hnew
    · exact h.awaited journal hold p hp lsn hlsn
    · obtain rfl := List.mem_singleton.mp hnew
      have hhighest := (hl.highestMemtableSeqno _).symm.trans hlsn
      rw [hmemtables p] at hhighest
      obtain ⟨v, hv, hseqno⟩ := (highest_eq_some.mp hhighest).1
      refine ⟨v, ?_, hseqno⟩
      rw [← (h.partition p hp).contents]
      exact List.mem_append_right _ hv

theorem Inv.flush (hl : lib.Lawful view writes) (h : Inv view writes coding parts ks gone journals act)
    (hname : name ∈ parts) (tasks : Nat) :
    Inv view writes coding parts (FjallKeyspace.flush lib name tasks ks) gone journals act := by
  have hqueue : ks.queue name = (view (ks.tree name)).sealed := (h.partition name hname).queue
  have hsplit : (view (ks.tree name)).sealed = (ks.queue name).take tasks ++ (ks.queue name).drop tasks := by
    rw [List.take_append_drop, hqueue]
  have hview := hl.register hsplit
  have hdrop : (ks.queue name).drop ((ks.queue name).take tasks).length = (ks.queue name).drop tasks := by
    rcases Nat.le_total tasks (ks.queue name).length with hle | hle
    · rw [List.length_take_of_le hle]
    · rw [List.take_of_length_le hle, List.drop_length, List.drop_of_length_le hle]
  refine ⟨h.history, ?_, ?_, h.active, h.awaited⟩
  · intro p hp
    obtain ⟨hq, hcontents, haligned⟩ := h.partition p hp
    by_cases hp' : p = name
    · subst hp'
      simp only [FjallKeyspace.flush, Function.update_self]
      refine ⟨?_, ?_, ?_⟩
      · rw [hview, hdrop]
      · rw [← hcontents, hview]
        simp only [TreeView.contents, List.append_assoc]
        rw [hsplit, List.flatMap_append, List.append_assoc]
      · intro ms hms
        rw [hview] at hms ⊢
        have hcut := haligned ((ks.queue p).take tasks ++ ms)
          (hsplit ▸ (List.prefix_append_right_inj _).mpr hms)
        rwa [List.flatMap_append, ← List.append_assoc] at hcut
    · simp only [FjallKeyspace.flush, Function.update_of_ne hp']
      exact ⟨hq, hcontents, haligned⟩
  · refine h.sealed.imp fun _ _ hsealed => hsealed.mono ?_
    intro p _ v hv
    by_cases hp' : p = name
    · subst hp'
      simp only [FjallKeyspace.flush, Function.update_self]
      rw [hview]
      exact List.mem_append_left _ hv
    · simp only [FjallKeyspace.flush, Function.update_of_ne hp']
      exact hv

theorem Sealed.persisted (hl : lib.Lawful view writes) {journal : SealedJournal} {bs : List Batch}
    (h : Sealed view coding parts ks.tree journal bs)
    (hflushed : flushed lib parts ks.tree journal = true) (hp : p ∈ parts) :
    ∀ v ∈ versions p bs, ∃ w ∈ (view (ks.tree p)).segments, v.seqno ≤ w.seqno := by
  intro v hv
  rcases h.covers p hp v hv with hseg | ⟨lsn, hlsn, hle⟩
  · exact ⟨v, hseg, Nat.le_refl _⟩
  · have hall := List.all_eq_true.mp hflushed p hp
    rw [hlsn, Option.all_some, hl.persistedSeqno] at hall
    cases hn : highest (view (ks.tree p)).segments with
    | none =>
        rw [hn] at hall
        cases hall
    | some n =>
        obtain ⟨⟨w, hw, rfl⟩, -⟩ := highest_eq_some.mp hn
        rw [hn] at hall
        exact ⟨w, hw, Nat.le_trans hle (of_decide_eq_true hall)⟩

theorem IsCut.evict {bs : List Batch} {vs : List Write} {seqno : Nat}
    (h : IsCut p gone (bs :: journals) vs) (hhistory : History parts (gone ++ bs) seqno)
    (hpersisted : ∀ v ∈ versions p bs, ∃ w ∈ vs, v.seqno ≤ w.seqno) :
    IsCut p (gone ++ bs) journals vs := by
  obtain ⟨k, hk, rfl⟩ := h
  cases k with
  | zero =>
      have hnone : versions p bs = [] := by
        rw [List.eq_nil_iff_forall_not_mem]
        intro v hv
        obtain ⟨w, hw, hle⟩ := hpersisted v hv
        simp only [List.take_zero, List.flatten_nil, List.append_nil] at hw
        exact absurd (hhistory.later hw hv) (Nat.not_lt.mpr hle)
      exact ⟨0, Nat.zero_le _, by simp [versions_append, hnone]⟩
  | succ k =>
      refine ⟨k, Nat.le_of_succ_le_succ hk, ?_⟩
      rw [List.take_succ_cons, List.flatten_cons, List.append_assoc]

theorem Inv.evict (hl : lib.Lawful view writes) {bs : List Batch} {journal : SealedJournal}
    {rest : List SealedJournal} (h : Inv view writes coding parts ks gone (bs :: journals) act)
    (hsealed : ks.sealed = journal :: rest) (hflushed : flushed lib parts ks.tree journal = true) :
    Inv view writes coding parts { ks with sealed := rest } (gone ++ bs) journals act := by
  have hjournals := h.sealed
  rw [hsealed] at hjournals
  obtain ⟨hjournal, hrest⟩ := List.forall₂_cons.mp hjournals
  have hsplit : gone ++ (bs :: journals).flatten ++ act = gone ++ bs ++ journals.flatten ++ act := by simp
  have hhistory := h.history
  rw [hsplit] at hhistory
  refine ⟨hhistory, ?_, hrest, h.active, ?_⟩
  · intro p hp
    obtain ⟨hqueue, hcontents, haligned⟩ := h.partition p hp
    refine ⟨hqueue, hsplit ▸ hcontents, ?_⟩
    intro ms hms
    apply (haligned ms hms).evict hhistory.left.left
    intro v hv
    obtain ⟨w, hw, hle⟩ := hjournal.persisted hl hflushed hp v hv
    exact ⟨w, List.mem_append_left _ hw, hle⟩
  · rw [← hsplit]
    exact fun journal hmem => h.awaited journal (hsealed ▸ List.mem_cons_of_mem _ hmem)

/-- Only journals go of which every write is in a segment: all that the keyspace was
given is still in segments, memtables and journals. -/
theorem Inv.maintenance (hl : lib.Lawful view writes)
    (h : Inv view writes coding parts ks gone journals act) :
    ∃ gone' journals', Inv view writes coding parts (maintenance lib parts ks) gone' journals' act ∧
      gone' ++ journals'.flatten = gone ++ journals.flatten := by
  rw [FjallKeyspace.maintenance]
  induction hsealed : ks.sealed generalizing ks gone journals with
  | nil =>
      refine ⟨gone, journals, ⟨h.history, h.partition, ?_, h.active, ?_⟩, rfl⟩
      · have hjournals := h.sealed
        rwa [hsealed] at hjournals
      · exact fun journal hmem => absurd hmem List.not_mem_nil
  | cons journal rest ih =>
      have hjournals := h.sealed
      rw [hsealed] at hjournals
      cases journals with
      | nil => cases hjournals
      | cons bs journals =>
          by_cases hflushed : flushed lib parts ks.tree journal = true
          · rw [List.dropWhile_cons_of_pos hflushed]
            obtain ⟨gone', journals', hinv, hall⟩ := ih (h.evict hl hsealed hflushed) rfl
            exact ⟨gone', journals', hinv, hall.trans (by simp)⟩
          · rw [List.dropWhile_cons_of_neg hflushed]
            have hawaited := h.awaited
            rw [hsealed] at hawaited
            exact ⟨gone, bs :: journals, ⟨h.history, h.partition, hjournals, h.active, hawaited⟩, rfl⟩

end Invariant

section Reading

variable {coding : TreeCoding}

theorem readBack_encodeAll (hc : coding.Lawful) {bs : List Batch} (h : ∀ batch ∈ bs, batch.Fits) (k : Nat) :
    readBack coding (encodeAll coding bs ++ List.replicate k 0) = .ok (bs, (encodeAll coding bs).length) := by
  rw [readBack, readJournal_encodeAll hc h]

theorem readBack_cut (hc : coding.Lawful) {bs : List Batch} (h : ∀ batch ∈ bs, batch.Fits) (n k : Nat) :
    ∃ m ≤ bs.length,
      readBack coding ((encodeAll coding bs).take n ++ List.replicate k 0) =
        .ok (bs.take m, (encodeAll coding (bs.take m)).length) ∧
      ((encodeAll coding bs).take n ++ List.replicate k 0).take (encodeAll coding (bs.take m)).length =
        encodeAll coding (bs.take m) ∧
      ∀ m' ≤ bs.length, (encodeAll coding (bs.take m')).length ≤ n → m' ≤ m := by
  obtain ⟨m, part, hm, htake, -, hmax, hpart⟩ := cut_journal hc h n
  have hwhole : ∀ batch ∈ bs.take m, batch.Fits := fun batch hb => h batch (List.mem_of_mem_take hb)
  obtain ⟨seqno, hall⟩ := readAll_encodeAll hc hwhole 0 0 (part ++ List.replicate k 0) []
  refine ⟨m, hm, ?_, ?_, fun m' hm' hlen => hmax m' hm' hlen⟩
  · rw [readBack, readJournal_eq, htake, List.append_assoc, hall, hpart, List.nil_append, Nat.zero_add]
  · rw [htake, List.append_assoc, List.take_left]

end Reading

section Recovery

variable {T M : Type} (view : T → TreeView M) (writes : M → List Write)

/-- A tree while journals are replayed: it holds what is in the first of them, at least
up to those replayed so far. What its segments hold of later journals is not read twice. -/
structure Replaying (p : String) (t : T) (queue : List M) (gone : List Batch)
    (journals : List (List Batch)) (replayed : Nat) (pending : List Write) : Prop where
  queue : queue = (view t).sealed
  pending : (view t).active = pending
  cut : ∃ k, replayed ≤ k ∧ k ≤ journals.length ∧
    (view t).segments ++ (view t).sealed.flatMap writes = versions p (gone ++ (journals.take k).flatten) ∧
    (replayed < k → (view t).sealed = [])
  aligned : ∀ ms, ms <+: (view t).sealed →
    IsCut p gone journals ((view t).segments ++ ms.flatMap writes)

variable {view writes} {lib : TreeLib T M} {coding : TreeCoding} {parts : List String}
  {ks ks' : Keyspace T M} {gone act : List Batch} {journals done todo : List (List Batch)}
  {bs : List Batch} {p name : String} {t : T} {queue : List M} {seqno : Nat}

theorem take_done (hall : journals = done ++ bs :: todo) :
    (journals.take done.length).flatten = done.flatten ∧
      (journals.take (done.length + 1)).flatten = done.flatten ++ bs := by
  subst hall
  constructor
  · rw [List.take_left]
  · rw [List.append_cons, List.take_left' (by simp), flatten_snoc]

theorem Replaying.none (h : Replaying view writes p t queue gone journals done.length [])
    (hall : journals = done ++ bs :: todo) (hnone : versions p bs = []) :
    Replaying view writes p t queue gone journals (done.length + 1) [] := by
  obtain ⟨hdone, hnext⟩ := take_done hall
  obtain ⟨k, hle, hk, hcut, hempty⟩ := h.cut
  refine ⟨h.queue, h.pending, ?_, h.aligned⟩
  rcases Nat.lt_or_eq_of_le hle with hlt | rfl
  · exact ⟨k, hlt, hk, hcut, fun _ => hempty hlt⟩
  · refine ⟨done.length + 1, Nat.le_refl _, by simp [hall], ?_, fun hlt => absurd hlt (Nat.lt_irrefl _)⟩
    rw [hcut, hdone, hnext, ← List.append_assoc, versions_append p _ bs, hnone, List.append_nil]

theorem Replaying.skip (hl : lib.Lawful view writes)
    (h : Replaying view writes p t queue gone journals done.length (versions p bs))
    (hall : journals = done ++ bs :: todo) (hhistory : History parts (gone ++ journals.flatten) seqno)
    {lsn n : Nat} (hlsn : highest (versions p bs) = some lsn) (hn : highest (view t).segments = some n)
    (hle : lsn ≤ n) :
    Replaying view writes p (lib.clearActiveMemtable t) queue gone journals (done.length + 1) [] := by
  obtain ⟨hdone, hnext⟩ := take_done hall
  obtain ⟨k, hk, hk', hcut, hempty⟩ := h.cut
  have hlt : done.length < k := by
    apply Nat.lt_of_le_of_ne hk
    rintro rfl
    obtain ⟨⟨v, hv, rfl⟩, -⟩ := highest_eq_some.mp hlsn
    obtain ⟨⟨w, hw, rfl⟩, -⟩ := highest_eq_some.mp hn
    have hmem : w ∈ versions p (gone ++ done.flatten) := by
      rw [← hdone, ← hcut]
      exact List.mem_append_left _ hw
    rw [hall, List.flatten_append, List.flatten_cons, ← List.append_assoc, ← List.append_assoc] at hhistory
    exact absurd (hhistory.left.later hmem hv) (Nat.not_lt.mpr hle)
  rw [← h.queue] at *
  refine ⟨?_, ?_, ⟨k, hlt, hk', ?_, fun _ => ?_⟩, ?_⟩
  · rw [hl.clear]
    exact h.queue
  · rw [hl.clear]
  · rw [hl.clear]
    exact h.queue ▸ hcut
  · rw [hl.clear]
    exact h.queue ▸ hempty hlt
  · rw [hl.clear]
    exact h.aligned

theorem Replaying.seal (hl : lib.Lawful view writes)
    (h : Replaying view writes p t queue gone journals done.length (versions p bs))
    (hall : journals = done ++ bs :: todo) {lsn : Nat} (hlsn : highest (versions p bs) = some lsn)
    (hbehind : ∀ v ∈ (view t).segments, v.seqno < lsn) {t' : T} {memtable : M}
    (hsome : lib.rotateMemtable t = some (t', memtable)) :
    Replaying view writes p t' (queue ++ [memtable]) gone journals (done.length + 1) [] := by
  obtain ⟨hdone, hnext⟩ := take_done hall
  obtain ⟨hwrites, ht'⟩ := hl.rotate_some hsome
  obtain ⟨k, hk, hk', hcut, hempty⟩ := h.cut
  have hlt : done.length + 1 ≤ journals.length := by simp [hall]
  have hkdone : k = done.length := by
    apply Nat.le_antisymm _ hk
    apply Nat.le_of_not_lt
    intro hlt'
    obtain ⟨⟨v, hv, rfl⟩, -⟩ := highest_eq_some.mp hlsn
    obtain ⟨more, hmore⟩ := @List.take_prefix_take_left _ journals (done.length + 1) k hlt'
    have hmem : v ∈ (view t).segments ++ (view t).sealed.flatMap writes := by
      rw [hcut, ← hmore, List.flatten_append, hnext, ← List.append_assoc, ← List.append_assoc,
        versions_append, versions_append]
      exact List.mem_append_left _ (List.mem_append_right _ hv)
    rw [hempty hlt', List.flatMap_nil, List.append_nil] at hmem
    exact Nat.lt_irrefl _ (hbehind v hmem)
  subst hkdone
  have hcontents : (view t).segments ++ ((view t).sealed ++ [memtable]).flatMap writes =
      versions p (gone ++ (journals.take (done.length + 1)).flatten) := by
    rw [hnext, ← List.append_assoc, versions_append, ← hdone, ← hcut, List.flatMap_append,
      List.append_assoc]
    simp [hwrites, h.pending]
  refine ⟨?_, ?_, ⟨done.length + 1, Nat.le_refl _, hlt, ?_, fun h => absurd h (Nat.lt_irrefl _)⟩, ?_⟩
  · rw [ht', h.queue]
  · rw [ht']
  · rw [ht']
    exact hcontents
  · intro ms hms
    rw [ht'] at hms ⊢
    rcases List.prefix_concat_iff.mp hms with rfl | hms
    · exact ⟨done.length + 1, hlt, hcontents⟩
    · exact h.aligned ms hms

/-- Sealing what was replayed of a journal succeeds in every partition, and leaves the
others as they are. -/
theorem sealRecovered_ok (hl : lib.Lawful view writes) {watermarks : Watermarks}
    (h : Replaying view writes p (ks.tree p) (ks.queue p) gone journals done.length (versions p bs))
    (hall : journals = done ++ bs :: todo) (hhistory : History parts (gone ++ journals.flatten) seqno)
    (hmark : watermarks p = highest (versions p bs)) :
    ∃ ks', sealRecovered lib watermarks ks p = .ok ks' ∧
      Replaying view writes p (ks'.tree p) (ks'.queue p) gone journals (done.length + 1) [] ∧
      (∀ q, q ≠ p → ks'.tree q = ks.tree q ∧ ks'.queue q = ks.queue q) ∧ ks'.sealed = ks.sealed := by
  rw [sealRecovered, hmark]
  cases hlsn : highest (versions p bs) with
  | none =>
      have hnone := highest_eq_none.mp hlsn
      rw [hnone] at h
      exact ⟨ks, rfl, h.none hall hnone, fun q _ => ⟨rfl, rfl⟩, rfl⟩
  | some lsn =>
      simp only
      rw [hl.persistedSeqno]
      by_cases hskip : (highest (view (ks.tree p)).segments).any (lsn ≤ ·) = true
      · rw [if_pos hskip]
        refine ⟨_, rfl, ?_, fun q hq => ⟨Function.update_of_ne hq _ _, rfl⟩, rfl⟩
        simp only [Function.update_self]
        cases hn : highest (view (ks.tree p)).segments with
        | none =>
            rw [hn] at hskip
            cases hskip
        | some n =>
            rw [hn] at hskip
            exact h.skip hl hall hhistory hlsn hn (of_decide_eq_true hskip)
      · rw [if_neg hskip]
        have hbehind : ∀ v ∈ (view (ks.tree p)).segments, v.seqno < lsn := by
          intro v hv
          obtain ⟨n, hn, hle⟩ := le_highest hv
          rw [hn] at hskip
          exact Nat.lt_of_le_of_lt hle (Nat.lt_of_not_le fun h => hskip (decide_eq_true h))
        cases hrotate : lib.rotateMemtable (ks.tree p) with
        | none =>
            have hactive := (hl.rotate_none _).mp hrotate
            rw [h.pending] at hactive
            rw [hactive] at hlsn
            cases hlsn
        | some rotated =>
            obtain ⟨t', memtable⟩ := rotated
            have hmemtable : lib.memtableSeqno memtable = some lsn := by
              rw [hl.memtableSeqno, (hl.rotate_some hrotate).1, h.pending, hlsn]
            simp only
            rw [if_pos hmemtable]
            refine ⟨_, rfl, ?_, fun q hq => ⟨Function.update_of_ne hq _ _, Function.update_of_ne hq _ _⟩, rfl⟩
            simp only [Function.update_self]
            exact h.seal hl hall hlsn hbehind hrotate

theorem sealAll_ok (hl : lib.Lawful view writes) {watermarks : Watermarks} {names : List String}
    (hnodup : names.Nodup)
    (h : ∀ p ∈ names,
      Replaying view writes p (ks.tree p) (ks.queue p) gone journals done.length (versions p bs))
    (hall : journals = done ++ bs :: todo) (hhistory : History parts (gone ++ journals.flatten) seqno)
    (hmark : ∀ p ∈ names, watermarks p = highest (versions p bs)) :
    ∃ ks', names.foldlM (sealRecovered lib watermarks) ks = .ok ks' ∧
      (∀ p ∈ names, Replaying view writes p (ks'.tree p) (ks'.queue p) gone journals (done.length + 1) []) ∧
      (∀ q ∉ names, ks'.tree q = ks.tree q ∧ ks'.queue q = ks.queue q) ∧ ks'.sealed = ks.sealed := by
  induction names generalizing ks with
  | nil => exact ⟨ks, rfl, fun p hp => absurd hp List.not_mem_nil, fun q _ => ⟨rfl, rfl⟩, rfl⟩
  | cons name names ih =>
      obtain ⟨hname, hnames⟩ := List.nodup_cons.mp hnodup
      obtain ⟨ks₁, hone, hsealed, hother, hjournals⟩ := sealRecovered_ok hl (h name List.mem_cons_self)
        hall hhistory (hmark name List.mem_cons_self)
      have hrest : ∀ p ∈ names,
          Replaying view writes p (ks₁.tree p) (ks₁.queue p) gone journals done.length (versions p bs) := by
        intro p hp
        have hne : p ≠ name := fun heq => hname (heq ▸ hp)
        rw [(hother p hne).1, (hother p hne).2]
        exact h p (List.mem_cons_of_mem _ hp)
      obtain ⟨ks₂, hmany, hall₂, hother₂, hjournals₂⟩ :=
        ih hnames hrest fun p hp => hmark p (List.mem_cons_of_mem _ hp)
      refine ⟨ks₂, bind_ok.mpr ⟨ks₁, hone, hmany⟩, ?_, ?_, hjournals₂.trans hjournals⟩
      · intro p hp
        rcases List.mem_cons.mp hp with rfl | hp
        · rw [(hother₂ p hname).1, (hother₂ p hname).2]
          exact hsealed
        · exact hall₂ p hp
      · intro q hq
        rw [List.mem_cons, not_or] at hq
        obtain ⟨hne, hq⟩ := hq
        exact ⟨(hother₂ q hq).1.trans (hother q hne).1, (hother₂ q hq).2.trans (hother q hne).2⟩

structure Requeued (coding : TreeCoding) (parts : List String) (journal : SealedJournal)
    (bs : List Batch) : Prop where
  file : journal.file = encodeAll coding bs
  watermarks : ∀ p ∈ parts, journal.watermarks p = highest (versions p bs)

theorem recoverSealed_ok (hc : coding.Lawful) (hl : lib.Lawful view writes) (hnodup : parts.Nodup)
    (h : ∀ p ∈ parts, Replaying view writes p (ks.tree p) (ks.queue p) gone journals done.length [])
    (hall : journals = done ++ bs :: todo) (hhistory : History parts (gone ++ journals.flatten) seqno)
    (zeros : Nat) :
    ∃ ks', recoverSealedMemtables lib coding parts ks (encodeAll coding bs ++ List.replicate zeros 0) =
        .ok ks' ∧
      (∀ p ∈ parts, Replaying view writes p (ks'.tree p) (ks'.queue p) gone journals (done.length + 1) []) ∧
      ∃ journal, ks'.sealed = ks.sealed ++ [journal] ∧ Requeued coding parts journal bs := by
  have hfits : ∀ batch ∈ bs, batch.Fits := by
    intro batch hb
    apply hhistory.fits
    rw [hall]
    simp [hb]
  have hreplay : ∀ p ∈ parts, _ := fun p hp =>
    replay_view hl hp bs (ks.tree, fun _ => none) highest_nil.symm
  have hloaded : ∀ p ∈ parts, Replaying view writes p
      ((bs.foldl (replayBatch lib parts) (ks.tree, fun _ => none)).1 p) (ks.queue p) gone journals
      done.length (versions p bs) := by
    intro p hp
    obtain ⟨hqueue, hpending, hcut, haligned⟩ := h p hp
    have hview := (hreplay p hp).1
    refine ⟨?_, ?_, ?_, ?_⟩
    · rw [hview]
      exact hqueue
    · rw [hview, hpending, List.nil_append]
    · rw [hview]
      exact hcut
    · rw [hview]
      exact haligned
  have hmark : ∀ p ∈ parts, (bs.foldl (replayBatch lib parts) (ks.tree, fun _ => none)).2 p =
      highest (versions p bs) := by
    intro p hp
    rw [(hreplay p hp).2, List.nil_append]
  let loaded : Keyspace T M :=
    { ks with tree := (bs.foldl (replayBatch lib parts) (ks.tree, fun _ => none)).1 }
  obtain ⟨ks', hok, hsealed, -, hjournals⟩ := @sealAll_ok _ _ _ _ _ _ loaded _ _ _ _ _ _ hl _ _ hnodup
    hloaded hall hhistory hmark
  refine ⟨_, bind_ok.mpr ⟨_, readBack_encodeAll hc hfits zeros, bind_ok.mpr ⟨ks', hok, rfl⟩⟩, hsealed, ?_⟩
  refine ⟨_, congrArg (· ++ _) hjournals, ?_, hmark⟩
  exact List.take_left

theorem recoverJournals_ok (hc : coding.Lawful) (hl : lib.Lawful view writes) (hnodup : parts.Nodup)
    {files : List Bytes} {requeued : List (List Batch)}
    (hfiles : List.Forall₂ (fun file bs => ∃ zeros, file = encodeAll coding bs ++ List.replicate zeros 0)
      files todo)
    (h : ∀ p ∈ parts, Replaying view writes p (ks.tree p) (ks.queue p) gone journals done.length [])
    (hall : journals = done ++ todo) (hhistory : History parts (gone ++ journals.flatten) seqno)
    (hsealed : List.Forall₂ (Requeued coding parts) ks.sealed requeued) :
    ∃ ks', files.foldlM (recoverSealedMemtables lib coding parts) ks = .ok ks' ∧
      (∀ p ∈ parts, Replaying view writes p (ks'.tree p) (ks'.queue p) gone journals journals.length []) ∧
      List.Forall₂ (Requeued coding parts) ks'.sealed (requeued ++ todo) := by
  induction hfiles generalizing ks done requeued with
  | nil =>
      rw [List.append_nil] at hall ⊢
      subst hall
      exact ⟨ks, rfl, h, hsealed⟩
  | @cons file bs files todo hfile _ ih =>
      obtain ⟨zeros, rfl⟩ := hfile
      obtain ⟨ks₁, hone, hreplaying, journal, hjournal, hrequeued⟩ :=
        recoverSealed_ok hc hl hnodup h hall hhistory zeros
      have hlength : (done ++ [bs]).length = done.length + 1 := by simp
      rw [← hlength] at hreplaying
      have hsealed₁ : List.Forall₂ (Requeued coding parts) ks₁.sealed (requeued ++ [bs]) := by
        rw [hjournal]
        exact List.rel_append hsealed (.cons hrequeued .nil)
      obtain ⟨ks₂, hmany, hreplaying₂, hsealed₂⟩ := ih hreplaying (by rw [hall, List.append_cons]) hsealed₁
      rw [← List.append_cons] at hsealed₂
      exact ⟨ks₂, bind_ok.mpr ⟨ks₁, hone, hmany⟩, hreplaying₂, hsealed₂⟩

theorem le_foldl_max (f : String → Nat) (names : List String) (start : Nat) :
    start ≤ names.foldl (fun n q => max n (f q)) start ∧
      ∀ q ∈ names, f q ≤ names.foldl (fun n q => max n (f q)) start := by
  induction names generalizing start with
  | nil => exact ⟨Nat.le_refl _, fun q hq => absurd hq List.not_mem_nil⟩
  | cons name names ih =>
      obtain ⟨hstart, hnames⟩ := ih (max start (f name))
      refine ⟨Nat.le_trans (Nat.le_max_left _ _) hstart, ?_⟩
      intro q hq
      rcases List.mem_cons.mp hq with rfl | hq
      · exact Nat.le_trans (Nat.le_max_right _ _) hstart
      · exact hnames q hq

theorem History.renumber {history : List Batch} (h : History parts history seqno) {seqno' : Nat}
    (hall : ∀ p ∈ parts, nextSeqno (highest (versions p history)) ≤ seqno') :
    History parts history seqno' := by
  refine ⟨h.increasing, ?_, h.fits, h.nonempty, h.parts⟩
  intro batch hb
  obtain ⟨item, hitem⟩ := List.exists_mem_of_ne_nil _ (h.nonempty batch hb)
  have hmem : version batch.seqno item ∈ versions item.partition history :=
    mem_versions.mpr ⟨batch, hb, item, hitem, rfl, rfl⟩
  obtain ⟨n, hn, hle⟩ := le_highest hmem
  have hnext := hall item.partition (h.parts batch hb item hitem)
  rw [hn] at hnext
  exact Nat.lt_of_le_of_lt hle hnext

/-- Recovery succeeds after any crash, and has every batch of the active journal that
was written as a whole. -/
theorem Inv.recover (hc : coding.Lawful) (hl : lib.Lawful view writes) (hnodup : parts.Nodup)
    (h : Inv view writes coding parts ks gone journals act) (cut zeros : Nat) :
    ∃ ks', recover lib coding parts (crash lib cut zeros ks) = .ok ks' ∧ ∃ m ≤ act.length,
      Inv view writes coding parts ks' gone journals (act.take m) ∧
      ks'.writer.synced = (encodeAll coding (act.take m)).length ∧
      ∀ m' ≤ act.length, (encodeAll coding (act.take m')).length ≤ cut → m' ≤ m := by
  have hfiles : List.Forall₂
      (fun file bs => ∃ zeros, file = encodeAll coding bs ++ List.replicate zeros 0)
      (ks.sealed.map (·.file)) journals := by
    rw [List.forall₂_map_left_iff]
    exact h.sealed.imp fun _ _ hsealed => hsealed.file
  have hreopened : ∀ p ∈ parts, Replaying view writes p (lib.reopen (ks.tree p)) ([] : List M) gone
      journals ([] : List (List Batch)).length [] := by
    intro p hp
    obtain ⟨k, hk, hcut⟩ := (h.partition p hp).aligned [] List.nil_prefix
    rw [List.flatMap_nil, List.append_nil] at hcut
    refine ⟨?_, ?_, ⟨k, Nat.zero_le _, hk, ?_, fun _ => ?_⟩, ?_⟩
    · rw [hl.reopen]
    · rw [hl.reopen]
    · rw [hl.reopen, List.flatMap_nil, List.append_nil]
      exact hcut
    · rw [hl.reopen]
    · intro ms hms
      rw [hl.reopen] at hms ⊢
      obtain rfl := List.prefix_nil.mp hms
      exact ⟨k, hk, by rw [List.flatMap_nil, List.append_nil]; exact hcut⟩
  let opened : Keyspace T M :=
    { tree := fun p => lib.reopen (ks.tree p)
      queue := fun _ => []
      seqno := 0
      sealed := []
      writer := ⟨[], 0, 0⟩ }
  have hopened : List.Forall₂ (Requeued coding parts) opened.sealed [] := .nil
  have hall : journals = [] ++ journals := rfl
  obtain ⟨ks₁, hsealedOk, hreplayed, hrequeued⟩ :=
    recoverJournals_ok hc hl hnodup hfiles hreopened hall h.history.left hopened
  have hfits : ∀ batch ∈ act, batch.Fits :=
    fun batch hb => h.history.fits batch (List.mem_append_right _ hb)
  obtain ⟨m, hm, hread, htake, hmax⟩ := readBack_cut hc hfits cut zeros
  rw [← h.active] at hread htake
  refine ⟨_, bind_ok.mpr ⟨ks₁, hsealedOk, bind_ok.mpr ⟨_, hread, rfl⟩⟩, m, hm, ?_, rfl, hmax⟩
  have hview := fun p (hp : p ∈ parts) => applyBatches_view hl hp (act.take m) ks₁.tree
  have hcontents : ∀ p ∈ parts, (view ((act.take m).foldl (fun tree batch =>
      batch.items.foldl (applyItem lib parts batch.seqno) tree) ks₁.tree p)).contents writes =
        versions p (gone ++ journals.flatten ++ act.take m) := by
    intro p hp
    obtain ⟨-, hpending, ⟨k, hk, hk', hcut, -⟩, -⟩ := hreplayed p hp
    obtain rfl := Nat.le_antisymm hk' hk
    rw [hview p hp, TreeView.contents, ← List.append_assoc, hcut, List.take_length, hpending,
      List.nil_append, versions_append p (gone ++ journals.flatten)]
  have htaken : History parts (gone ++ journals.flatten ++ act.take m) ks.seqno := by
    have hhistory := h.history
    rw [← List.take_append_drop m act, ← List.append_assoc] at hhistory
    exact hhistory.left
  refine ⟨?_, ?_, ?_, htake, ?_⟩
  · apply htaken.renumber
    intro p hp
    rw [← hcontents p hp, ← hl.highestSeqno]
    exact (le_foldl_max (fun q => nextSeqno (lib.highestSeqno ((act.take m).foldl (fun tree batch =>
      batch.items.foldl (applyItem lib parts batch.seqno) tree) ks₁.tree q))) parts ks₁.seqno).2 p hp
  · intro p hp
    obtain ⟨hqueue, hpending, -, haligned⟩ := hreplayed p hp
    refine ⟨?_, hcontents p hp, ?_⟩
    · rw [hview p hp]
      exact hqueue
    · rw [hview p hp]
      exact haligned
  · apply hrequeued.imp
    rintro journal bs ⟨hfile, hmarks⟩
    refine ⟨⟨0, by rw [hfile, List.replicate_zero, List.append_nil]⟩, ?_⟩
    intro p hp v hv
    obtain ⟨lsn, hlsn, hle⟩ := le_highest hv
    exact .inr ⟨lsn, (hmarks p hp).trans hlsn, hle⟩
  · intro journal hjournal p hp lsn hlsn
    obtain ⟨bs, hbs, hrequeue⟩ := forall₂_mem hrequeued hjournal
    obtain ⟨v, hv, hseqno⟩ := (highest_eq_some.mp ((hrequeue.watermarks p hp).symm.trans hlsn)).1
    obtain ⟨batch, hbatch, item, hitem, hpartition, rfl⟩ := mem_versions.mp hv
    refine ⟨_, mem_versions.mpr ⟨batch, ?_, item, hitem, hpartition, rfl⟩, hseqno⟩
    exact List.mem_append_left _ (List.mem_append_right _ (List.mem_flatten.mpr ⟨bs, hbs, hbatch⟩))

end Recovery

section Refinement

variable {T M : Type}

inductive Abstract : Event → Disk Store (List Item) → Disk Store (List Item) → Prop
  | commit (items : List Item) (durability : Option PersistMode) (d : Disk Store (List Item)) :
      durability = none ∨ durability = some .buffer →
      Abstract (.commit items durability) d (if items = [] then d else d.append items)
  | commitSync (items : List Item) (durability : Option PersistMode) (d : Disk Store (List Item)) :
      durability = some .syncData ∨ durability = some .syncAll →
      Abstract (.commit items durability) d ((if items = [] then d else d.append items).sync putAll)
  | unrotated (name : String) (d : Disk Store (List Item)) : Abstract (.rotate name) d d
  | rotated (name : String) (d : Disk Store (List Item)) : Abstract (.rotate name) d (d.sync putAll)
  | flush (name : String) (tasks : Nat) (d : Disk Store (List Item)) : Abstract (.flush name tasks) d d
  | maintenance (d : Disk Store (List Item)) : Abstract .maintenance d d
  | buffer (d : Disk Store (List Item)) : Abstract (.persist .buffer) d d
  | sync (mode : PersistMode) (d : Disk Store (List Item)) :
      mode = .syncData ∨ mode = .syncAll → Abstract (.persist mode) d (d.sync putAll)
  | crash (cut zeros n : Nat) (d : Disk Store (List Item)) :
      Abstract (.crash cut zeros) d (d.crash putAll n)

inductive AbstractRun : List Event → Disk Store (List Item) → Prop
  | created : AbstractRun [] (started emptyStore)
  | then {events : List Event} {d d' : Disk Store (List Item)} (h : AbstractRun events d) (event : Event)
      (hstep : Abstract event d d') : AbstractRun (events ++ [event]) d'

/-- The batches that a crash cannot lose, and those since, of which the first `n` of the
active journal have been synced. -/
structure Refines (view : T → TreeView M) (writes : M → List Write) (coding : TreeCoding)
    (parts : List String) (ks : Keyspace T M) (d : Disk Store (List Item)) (gone : List Batch)
    (journals : List (List Batch)) (act : List Batch) (n : Nat) : Prop where
  inv : Inv view writes coding parts ks gone journals act
  le : n ≤ act.length
  synced : ks.writer.synced = (encodeAll coding (act.take n)).length
  durable : d.durable =
    ((gone ++ journals.flatten ++ act.take n).map (·.items)).foldl putAll emptyStore
  journal : d.journal = (act.drop n).map (·.items)

variable {view : T → TreeView M} {writes : M → List Write} {lib : TreeLib T M} {coding : TreeCoding}
  {parts : List String} {ks ks' : Keyspace T M} {d : Disk Store (List Item)} {gone act : List Batch}
  {journals : List (List Batch)} {n : Nat} {p name : String}

theorem Refines.view_eq (h : Refines view writes coding parts ks d gone journals act n) :
    d.view putAll = ((gone ++ journals.flatten ++ act).map (·.items)).foldl putAll emptyStore := by
  rw [Disk.view, h.durable, h.journal, ← List.foldl_append, ← List.map_append, List.append_assoc,
    List.take_append_drop]

theorem Refines.get (hl : lib.Lawful view writes)
    (h : Refines view writes coding parts ks d gone journals act n) (hp : p ∈ parts) (key : Bytes) :
    lib.get (ks.tree p) key = d.view putAll p key := by
  rw [h.inv.get hl hp, h.view_eq]

theorem Refines.sync (h : Refines view writes coding parts ks d gone journals act n)
    {writer : Writer} (hwritten : writer.written = ks.writer.written)
    (hsynced : writer.synced = ks.writer.written.length) :
    Refines view writes coding parts { ks with writer } (d.sync putAll) gone journals act act.length where
  inv := ⟨h.inv.history, h.inv.partition, h.inv.sealed, hwritten.trans h.inv.active, h.inv.awaited⟩
  le := Nat.le_refl _
  synced := by rw [List.take_length, ← h.inv.active, hsynced]
  durable := by rw [sync_durable, h.view_eq, List.take_length]
  journal := by rw [sync_journal, List.drop_length, List.map_nil]

theorem Refines.persist (h : Refines view writes coding parts ks d gone journals act n)
    (mode : PersistMode) : ∃ d' n', Abstract (.persist mode) d d' ∧
      Refines view writes coding parts (FjallKeyspace.persist mode ks) d' gone journals act n' := by
  cases mode with
  | buffer => exact ⟨d, n, .buffer d, h⟩
  | syncData => exact ⟨_, _, .sync .syncData d (.inl rfl), h.sync rfl rfl⟩
  | syncAll => exact ⟨_, _, .sync .syncAll d (.inr rfl), h.sync rfl rfl⟩

theorem Refines.commit_unsynced (hl : lib.Lawful view writes)
    (h : Refines view writes coding parts ks d gone journals act n) {items : List Item}
    (hfits : (⟨ks.seqno, items⟩ : Batch).Fits) (hparts : ∀ item ∈ items, item.partition ∈ parts) :
    ∃ act', Refines view writes coding parts (FjallKeyspace.commit lib coding parts items none ks)
      (if items = [] then d else d.append items) gone journals act' n := by
  by_cases hitems : items = []
  · subst hitems
    exact ⟨act, h.inv.commit_nil none, h.le, h.synced, h.durable, h.journal⟩
  · rw [if_neg hitems]
    refine ⟨_, h.inv.commit hl hitems none hfits hparts, ?_, ?_, ?_, ?_⟩
    · rw [List.length_append]
      exact Nat.le_add_right_of_le h.le
    · rw [List.take_append_of_le_length h.le]
      exact h.synced
    · rw [List.take_append_of_le_length h.le]
      exact h.durable
    · rw [List.drop_append_of_le_length h.le, List.map_append, ← h.journal]
      rfl

theorem Refines.commit (hl : lib.Lawful view writes)
    (h : Refines view writes coding parts ks d gone journals act n) {items : List Item}
    (durability : Option PersistMode) (hfits : (⟨ks.seqno, items⟩ : Batch).Fits)
    (hparts : ∀ item ∈ items, item.partition ∈ parts) :
    ∃ d' act' n', Abstract (.commit items durability) d d' ∧
      Refines view writes coding parts (FjallKeyspace.commit lib coding parts items durability ks) d'
        gone journals act' n' := by
  obtain ⟨act', hcommit⟩ := h.commit_unsynced hl hfits hparts
  cases durability with
  | none => exact ⟨_, act', n, .commit items none d (.inl rfl), hcommit⟩
  | some mode =>
      cases mode with
      | buffer => exact ⟨_, act', n, .commit items _ d (.inr rfl), hcommit⟩
      | syncData => exact ⟨_, act', _, .commitSync items _ d (.inl rfl), hcommit.sync rfl rfl⟩
      | syncAll => exact ⟨_, act', _, .commitSync items _ d (.inr rfl), hcommit.sync rfl rfl⟩

theorem Refines.rotate (hl : lib.Lawful view writes)
    (h : Refines view writes coding parts ks d gone journals act n) (name : String) :
    ∃ d' journals' act' n', Abstract (.rotate name) d d' ∧
      Refines view writes coding parts (rotateMemtable lib name ks) d' gone journals' act' n' := by
  cases hrotate : lib.rotateMemtable (ks.tree name) with
  | none =>
      rw [rotate_none hrotate]
      exact ⟨d, journals, act, n, .unrotated name d, h⟩
  | some rotated =>
      obtain ⟨hinv, hwriter⟩ := h.inv.rotate hl hrotate
      refine ⟨_, _, _, 0, .rotated name d, hinv, Nat.le_refl _, ?_, ?_, rfl⟩
      · rw [hwriter]
        rfl
      · rw [sync_durable, h.view_eq, flatten_snoc]
        simp only [List.take_nil, List.append_nil, List.append_assoc]

theorem Refines.recover (hc : coding.Lawful) (hl : lib.Lawful view writes) (hnodup : parts.Nodup)
    (h : Refines view writes coding parts ks d gone journals act n) {cut : Nat}
    (hcut : ks.writer.synced ≤ cut) (zeros : Nat) :
    ∃ ks' act' n' m, recover lib coding parts (crash lib cut zeros ks) = .ok ks' ∧
      Refines view writes coding parts ks' (d.crash putAll m) gone journals act' n' := by
  obtain ⟨ks', hok, m, hm, hinv, hsynced, hmax⟩ := h.inv.recover hc hl hnodup cut zeros
  have hn : n ≤ m := hmax n h.le (by rw [← h.synced]; exact hcut)
  have hsplit : act.take n ++ (act.drop n).take (m - n) = act.take m := by
    rw [← List.take_add, Nat.add_sub_cancel' hn]
  refine ⟨ks', act.take m, (act.take m).length, m - n, hok, hinv, Nat.le_refl _, ?_, ?_, ?_⟩
  · rw [List.take_length, hsynced]
  · rw [Disk.crash, h.durable, h.journal, ← List.map_take, ← List.foldl_append, ← List.map_append,
      List.append_assoc, hsplit, List.take_length]
  · rw [crash_journal, List.drop_length, List.map_nil]

theorem Refines.step (hc : coding.Lawful) (hl : lib.Lawful view writes) (hnodup : parts.Nodup)
    (h : Refines view writes coding parts ks d gone journals act n) {event : Event}
    (hadmissible : event.Admissible parts ks) (hstep : step lib coding parts ks event = .ok ks') :
    ∃ d' gone' journals' act' n', Abstract event d d' ∧
      Refines view writes coding parts ks' d' gone' journals' act' n' := by
  cases event with
  | commit items durability =>
      obtain rfl := Except.ok.inj hstep
      obtain ⟨d', act', n', habstract, h'⟩ := h.commit hl durability hadmissible.1 hadmissible.2
      exact ⟨d', gone, journals, act', n', habstract, h'⟩
  | rotate name =>
      obtain rfl := Except.ok.inj hstep
      obtain ⟨d', journals', act', n', habstract, h'⟩ := h.rotate hl name
      exact ⟨d', gone, journals', act', n', habstract, h'⟩
  | flush name tasks =>
      obtain rfl := Except.ok.inj hstep
      exact ⟨d, gone, journals, act, n, .flush name tasks d, h.inv.flush hl hadmissible tasks, h.le,
        h.synced, h.durable, h.journal⟩
  | maintenance =>
      obtain rfl := Except.ok.inj hstep
      obtain ⟨gone', journals', hinv, hall⟩ := h.inv.maintenance hl
      exact ⟨d, gone', journals', act, n, .maintenance d, hinv, h.le, h.synced, by rw [hall]; exact h.durable,
        h.journal⟩
  | persist mode =>
      obtain rfl := Except.ok.inj hstep
      obtain ⟨d', n', habstract, h'⟩ := h.persist mode
      exact ⟨d', gone, journals, act, n', habstract, h'⟩
  | crash cut zeros =>
      obtain ⟨ks₁, act', n', m, hok, h'⟩ := h.recover hc hl hnodup hadmissible zeros
      have hks : FjallKeyspace.recover lib coding parts (crash lib cut zeros ks) = .ok ks' := hstep
      rw [hok] at hks
      obtain rfl := Except.ok.inj hks
      exact ⟨_, gone, journals, act', n', .crash cut zeros m d, h'⟩

theorem run_refines (hc : coding.Lawful) (hl : lib.Lawful view writes) (hnodup : parts.Nodup)
    {events : List Event} (hrun : Run lib coding parts events ks) :
    ∃ d gone journals act n, AbstractRun events d ∧
      Refines view writes coding parts ks d gone journals act n := by
  induction hrun with
  | created =>
      exact ⟨started emptyStore, [], [], [], 0, .created, inv_createNew hl, Nat.le_refl _, rfl, rfl, rfl⟩
  | «then» _ event hadmissible hstep ih =>
      obtain ⟨d, gone, journals, act, n, hrun, h⟩ := ih
      obtain ⟨d', gone', journals', act', n', habstract, h'⟩ := h.step hc hl hnodup hadmissible hstep
      exact ⟨d', gone', journals', act', n', hrun.then event habstract, h'⟩

/-- A run with a sealed journal and a batch behind it. -/
theorem plainRun : ∃ ks, ks.writer.synced ≤ 20 ∧ Run plainTrees plainCoding ["p"]
    [.commit plainBatch.items none, .rotate "p", .commit plainBatch.items none] ks := by
  have hfits : ∀ seqno < 2, (⟨seqno, plainBatch.items⟩ : Batch).Fits := by
    intro seqno hseqno
    obtain ⟨-, hcount, hitems⟩ := plainBatch_fits plainBatch List.mem_cons_self
    exact ⟨Nat.lt_trans hseqno (by decide), hcount, hitems⟩
  have hparts : ∀ item ∈ plainBatch.items, item.partition ∈ ["p"] := by
    intro item hitem
    obtain rfl := List.mem_singleton.mp hitem
    exact List.mem_cons_self
  have hname : "p" ∈ ["p"] := List.mem_cons_self
  have hone : Run plainTrees plainCoding ["p"] [.commit plainBatch.items none]
      (commit plainTrees plainCoding ["p"] plainBatch.items none (createNew plainTrees)) :=
    Run.created.then (.commit plainBatch.items none) ⟨hfits 0 (by decide), hparts⟩ rfl
  have htwo := hone.then (.rotate "p") hname rfl
  exact ⟨_, Nat.zero_le _, htwo.then (.commit plainBatch.items none) ⟨hfits 1 (by decide), hparts⟩ rfl⟩

theorem plainRun_crash : ∃ ks, Run plainTrees plainCoding ["p"]
    [.commit plainBatch.items none, .rotate "p", .commit plainBatch.items none, .crash 20 9] ks := by
  obtain ⟨ks, hcut, hrun⟩ := plainRun
  obtain ⟨d, gone, journals, act, n, -, h⟩ :=
    run_refines plainCoding_lawful plainTrees_lawful (List.nodup_singleton _) hrun
  obtain ⟨ks', act', n', m, hok, -⟩ :=
    h.recover plainCoding_lawful plainTrees_lawful (List.nodup_singleton _) hcut 9
  exact ⟨ks', hrun.then _ hcut hok⟩

/-- In whatever order a keyspace is written, synced, rotated, flushed, cleaned up and
crashes, it reads as a store does that applies its batches whole and in order, keeps
those that were synced, and loses some of the last ones in a crash. -/
theorem keyspace_crashSafe (hc : coding.Lawful) (hl : lib.Lawful view writes) (hnodup : parts.Nodup)
    {events : List Event} (hrun : Run lib coding parts events ks) :
    ∃ d, AbstractRun events d ∧ ∀ p ∈ parts, ∀ key, lib.get (ks.tree p) key = d.view putAll p key := by
  obtain ⟨d, gone, journals, act, n, hrun', h⟩ := run_refines hc hl hnodup hrun
  exact ⟨d, hrun', fun p hp key => h.get hl hp key⟩

theorem keyspace_crashSafe_plain : ∃ ks : Keyspace (TreeView (List Write)) (List Write),
    Run plainTrees plainCoding ["p"]
      [.commit plainBatch.items none, .rotate "p", .commit plainBatch.items none, .crash 20 9] ks ∧
    ∃ d, AbstractRun
        [.commit plainBatch.items none, .rotate "p", .commit plainBatch.items none, .crash 20 9] d ∧
      ∀ p ∈ ["p"], ∀ key, plainTrees.get (ks.tree p) key = d.view putAll p key := by
  obtain ⟨ks, hrun⟩ := plainRun_crash
  exact ⟨ks, hrun, keyspace_crashSafe plainCoding_lawful plainTrees_lawful (List.nodup_singleton _) hrun⟩

/-- After any run and any crash the keyspace opens again. -/
theorem keyspace_recovers (hc : coding.Lawful) (hl : lib.Lawful view writes) (hnodup : parts.Nodup)
    {events : List Event} (hrun : Run lib coding parts events ks) {cut : Nat}
    (hcut : ks.writer.synced ≤ cut) (zeros : Nat) :
    ∃ ks', recover lib coding parts (crash lib cut zeros ks) = .ok ks' := by
  obtain ⟨d, gone, journals, act, n, -, h⟩ := run_refines hc hl hnodup hrun
  obtain ⟨ks', act', n', m, hok, -⟩ := h.recover hc hl hnodup hcut zeros
  exact ⟨ks', hok⟩

theorem keyspace_recovers_plain : ∃ ks : Keyspace (TreeView (List Write)) (List Write),
    Run plainTrees plainCoding ["p"]
      [.commit plainBatch.items none, .rotate "p", .commit plainBatch.items none] ks ∧
    ∃ ks', recover plainTrees plainCoding ["p"] (crash plainTrees 20 9 ks) = .ok ks' := by
  obtain ⟨ks, hcut, hrun⟩ := plainRun
  exact ⟨ks, hrun, keyspace_recovers plainCoding_lawful plainTrees_lawful (List.nodup_singleton _) hrun hcut 9⟩

end Refinement

end Nightfrost.CrashSafety
