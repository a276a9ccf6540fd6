import Nightfrost.RootRepair
import Nightfrost.IndexBlock

namespace Nightfrost.LedgerArena

open ByteOrder Domain Schema WriteBlock ExceptFold LedgerDb Worklist RootRepair IndexBlock

structure ArenaDb (Object : Type) where
  nodes : Std.ExtTreeMap ArenaHash Object
  roots : RootCounts

/-- The storage crate under the ledger, with the states that one process of it
goes through, and the ledger states in its arena. -/
structure ArenaLibs (L : Type) where
  backend : StorageBackend
  arena : Arena backend
  openDb : ArenaDb backend.Object → backend.State
  db : backend.State → ArenaDb backend.Object
  alloc : backend.State → L → backend.State
  rootHash : L → ArenaHash
  /-- The nodes that a ledger state in memory refers to without holding them. -/
  refs : L → List ArenaHash
  load : backend.State → Bytes → LedgerVersion → Except LedgerError (L × backend.State)
  arenaRootHash : Bytes → LedgerVersion → Except String ArenaHash

inductive Halt
  | stopped (message : String)
  | panicked (message : String)
  deriving DecidableEq

def stop {α : Type} : Except String α → Except Halt α
  | .ok a => .ok a
  | .error message => .error (.stopped message)

variable {L : Type} (libs : LedgerLibs L) (a : ArenaLibs L)

section Operations

/-- The crate panics where a root count that it is to write is below zero. -/
def unpersist (s : a.backend.State) (hash : ArenaHash) : Except Halt a.backend.State :=
  if a.arena.rootCount s hash ≤ 0 then .error (.panicked "roots counts can't be negative")
  else .ok (a.backend.unpersist s hash)

def retire : a.backend.State → LedgerStateWindow → Except Halt (a.backend.State × LedgerStateWindow)
  | s, [] => .ok (s, [])
  | s, entry :: window =>
      if (entry :: window).length > ledgerStateRetention then do
        let hash ← (match a.arenaRootHash entry.1 entry.2 with
          | .ok hash => .ok hash
          | .error _ => .error (.stopped "unpersist ledger state beyond retention window"))
        let s ← unpersist a s hash
        retire s window
      else .ok (s, entry :: window)

def retainPersisted (s : a.backend.State) (window : LedgerStateWindow) : LedgerStateWindow :=
  window.filter (fun entry =>
    match a.arenaRootHash entry.1 entry.2 with
    | .ok hash => ((a.backend.getRoots s).map Prod.fst).contains hash
    | .error _ => false)

end Operations

section Laws

/-- A ledger state that holds all of itself. -/
inductive Created (version : LedgerVersion) : L → Prop
  | new {ledger : L} (h : libs.new version = .ok ledger) : Created version ledger
  | genesis {ledger : L} (raw : Bytes) (h : libs.fromGenesis raw version = .ok ledger) :
      Created version ledger

inductive Applies : L → L → Prop
  | regular {ledger ledger' : L} {outcome : ApplyRegularTransactionOutcome} (raw : Bytes)
      (parentHash : ByteArr 32) (timestamp parentTimestamp tblock : Nat)
      (h : libs.applyRegularTransaction ledger raw parentHash timestamp parentTimestamp tblock =
        .ok (outcome, ledger')) : Applies ledger ledger'
  | system {ledger ledger' : L} {outcome : ApplySystemTransactionOutcome} (raw : Bytes)
      (timestamp : Nat) (h : libs.applySystemTransaction ledger raw timestamp = .ok (outcome, ledger')) :
      Applies ledger ledger'
  | finalize {ledger ledger' : L} (timestamp : Nat)
      (h : libs.finalizeApplyTransactions ledger timestamp = .ok ledger') : Applies ledger ledger'

/-- A ledger state between two blocks, whose block fullness is zero. -/
def Settled (ledger : L) : Prop :=
  (∃ before timestamp, libs.finalizeApplyTransactions before timestamp = .ok ledger) ∨
    ∃ raw version, libs.fromGenesis raw version = .ok ledger

def ArenaLibs.Backed (s : a.backend.State) (ledger : L) : Prop :=
  ∀ hash ∈ a.refs ledger, Complete (a.arena.children s) hash

/-- The counts are the same, and nothing that a counted root reaches is gone. -/
structure ArenaLibs.Spares (s s' : a.backend.State) : Prop where
  rootCount : a.arena.rootCount s' = a.arena.rootCount s
  node : ∀ root, 0 < a.arena.rootCount s root → ∀ hash, Reach (a.arena.children s) root hash →
    ∀ object, a.arena.node s hash = some object → a.arena.node s' hash = some object

/-- What a sweep does, and what it writes: it may write counts that waited for a
flush along with the nodes that it removes. -/
structure ArenaLibs.Swept (s s' : a.backend.State) : Prop where
  spares : a.Spares s s'
  stored : ∀ hash, a.arena.stored s' hash = a.arena.stored s hash ∨
    a.arena.stored s' hash = a.arena.rootCount s hash
  node : ∀ root, 0 < a.arena.rootCount s root → ∀ hash,
    Reach (a.arena.children (a.openDb (a.db s))) root hash →
      ∀ object, (a.db s).nodes[hash]? = some object → (a.db s').nodes[hash]? = some object

/-- The arena as a map from hashes to nodes and root counts, of which a process
reads the database at its start and writes it with a flush or a sweep only. -/
structure ArenaLibs.Lawful : Prop where
  arena : a.arena.Lawful
  stored_db : ∀ s hash, a.arena.stored s hash = ((a.db s).roots.getD hash 0 : Nat)
  db_open : ∀ db, a.db (a.openDb db) = db
  node_open : ∀ db hash, a.arena.node (a.openDb db) hash = db.nodes[hash]?
  flushed_open : ∀ db, a.arena.Flushed (a.openDb db)
  db_unpersist : ∀ s hash, a.db (a.backend.unpersist s hash) = a.db s
  db_flush : ∀ s, (∀ hash, 0 ≤ a.arena.rootCount s hash) → ∀ hash,
    (a.db (a.backend.flushAllChangesToDb s)).nodes[hash]? = a.arena.node s hash
  spares_alloc : ∀ s ledger, a.Spares s (a.alloc s ledger)
  alloc_complete : ∀ s ledger, a.Backed s ledger →
    Complete (a.arena.children (a.alloc s ledger)) (a.rootHash ledger)
  load : ∀ s ledger key, Settled libs ledger → libs.root ledger = .ok key →
    Complete (a.arena.children s) (a.rootHash ledger) →
      ∃ s', a.load s key (libs.ledgerVersion ledger) = .ok (ledger, s') ∧ a.arena.Same s s' ∧ a.db s' = a.db s
  arenaRootHash : ∀ ledger key, libs.root ledger = .ok key →
    a.arenaRootHash key (libs.ledgerVersion ledger) = .ok (a.rootHash ledger)
  new_ok : ∀ version, ∃ ledger, libs.new version = .ok ledger
  created : ∀ version ledger, Created libs version ledger →
    libs.ledgerVersion ledger = version ∧ a.refs ledger = []
  applies : ∀ ledger ledger', Applies libs ledger ledger' →
    libs.ledgerVersion ledger' = libs.ledgerVersion ledger ∧ ∀ s, a.Backed s ledger → a.Backed s ledger'
  backed : ∀ s ledger, Complete (a.arena.children s) (a.rootHash ledger) → a.Backed s ledger

end Laws

section Held

variable {libs} {a} {s s' : a.backend.State} {hashes : List ArenaHash}

variable (a) in
/-- An arena holds the roots of a window: each is counted as often as it stands in
it at least, and is complete. -/
structure ArenaLibs.Held (s : a.backend.State) (hashes : List ArenaHash) : Prop where
  count : ∀ hash, (hashes.count hash : Int) ≤ a.arena.rootCount s hash
  complete : ∀ hash ∈ hashes, Complete (a.arena.children s) hash

theorem ArenaLibs.Held.nonneg (h : a.Held s hashes) (hash : ArenaHash) : 0 ≤ a.arena.rootCount s hash :=
  le_trans (Int.natCast_nonneg _) (h.count hash)

theorem ArenaLibs.Held.positive (h : a.Held s hashes) {hash : ArenaHash} (hmem : hash ∈ hashes) :
    0 < a.arena.rootCount s hash := by
  have hcount := h.count hash
  have hpos := List.count_pos_iff.mpr hmem
  omega

theorem children_of_node {t : a.backend.State} {hash : ArenaHash} (h : a.arena.node t hash = a.arena.node s hash) :
    a.arena.children t hash = a.arena.children s hash := congrArg (Option.map a.backend.refs) h

theorem complete_of_kept {t : a.backend.State} {root : ArenaHash} (hroot : Complete (a.arena.children s) root)
    (h : ∀ hash, Reach (a.arena.children s) root hash →
      ∀ object, a.arena.node s hash = some object → a.arena.node t hash = some object) :
    Complete (a.arena.children t) root := by
  refine hroot.congr fun hash hreach => children_of_node ?_
  obtain ⟨refs, hrefs⟩ := Option.isSome_iff_exists.mp (hroot hash hreach)
  obtain ⟨object, hobject, -⟩ := Option.map_eq_some_iff.mp hrefs
  rw [h hash hreach object hobject, hobject]

theorem complete_of_node {t : a.backend.State} (h : ∀ hash, a.arena.node t hash = a.arena.node s hash)
    {root : ArenaHash} (hroot : Complete (a.arena.children s) root) : Complete (a.arena.children t) root :=
  hroot.congr fun hash _ => children_of_node (h hash)

theorem ArenaLibs.Held.congr {t : a.backend.State} (h : a.Held s hashes)
    (hcount : ∀ hash, a.arena.rootCount t hash = a.arena.rootCount s hash)
    (hnode : ∀ hash, a.arena.node t hash = a.arena.node s hash) : a.Held t hashes where
  count hash := by
    rw [hcount]
    exact h.count hash
  complete hash hmem := complete_of_node hnode (h.complete hash hmem)

theorem ArenaLibs.Held.same {t : a.backend.State} (h : a.Held s hashes) (hsame : a.arena.Same s t) :
    a.Held t hashes :=
  h.congr (fun hash => congrFun hsame.rootCount hash) (fun hash => congrFun hsame.node hash)

theorem ArenaLibs.Held.sublist {hashes' : List ArenaHash} (h : a.Held s hashes)
    (hsub : hashes'.Sublist hashes) : a.Held s hashes' where
  count hash := by
    have hcount := h.count hash
    have hle := hsub.count_le hash
    omega
  complete hash hmem := h.complete hash (hsub.subset hmem)

theorem ArenaLibs.Held.spares {t : a.backend.State} (h : a.Held s hashes) (hspares : a.Spares s t) :
    a.Held t hashes where
  count hash := by
    rw [hspares.rootCount]
    exact h.count hash
  complete hash hmem := complete_of_kept (h.complete hash hmem) (hspares.node hash (h.positive hmem))

theorem ArenaLibs.Held.persist (hl : a.Lawful libs) (h : a.Held s hashes) {root : ArenaHash}
    (hroot : Complete (a.arena.children s) root) : a.Held (a.backend.persist s root) (hashes ++ [root]) := by
  obtain ⟨hnode, hcount, -⟩ := hl.arena.persist s root
  have hcomplete : ∀ {hash : ArenaHash}, Complete (a.arena.children s) hash →
      Complete (a.arena.children (a.backend.persist s root)) hash :=
    fun hhash => complete_of_node (fun other => congrFun hnode other) hhash
  constructor
  · intro hash
    have hold := h.count hash
    rw [hcount, List.count_append]
    by_cases he : hash = root
    · subst he
      rw [Function.update_self, List.count_singleton_self]
      push_cast
      omega
    · have hnone : hash ∉ [root] := fun hmem => he (List.mem_singleton.mp hmem)
      rw [Function.update_of_ne he, List.count_eq_zero_of_not_mem hnone]
      exact hold
  · intro hash hmem
    rcases List.mem_append.mp hmem with hold | hnew
    · exact hcomplete (h.complete hash hold)
    · rw [List.mem_singleton.mp hnew]
      exact hcomplete hroot

theorem ArenaLibs.Held.flush (hl : a.Lawful libs) (h : a.Held s hashes) :
    a.Held (a.backend.flushAllChangesToDb s) hashes ∧
      a.Held (a.openDb (a.db (a.backend.flushAllChangesToDb s))) hashes := by
  obtain ⟨hnode, hcount, hstored⟩ := hl.arena.flush s h.nonneg
  constructor
  · exact h.congr (fun hash => congrFun hcount hash) (fun hash => congrFun hnode hash)
  · refine h.congr (fun hash => ?_) (fun hash => ?_)
    · rw [← hl.flushed_open, hl.stored_db, hl.db_open, ← hl.stored_db, hstored]
    · rw [hl.node_open, hl.db_flush s h.nonneg]

theorem ArenaLibs.Held.unpersist (hl : a.Lawful libs) {root : ArenaHash} (h : a.Held s (root :: hashes)) :
    unpersist a s root = .ok (a.backend.unpersist s root) ∧ a.Held (a.backend.unpersist s root) hashes := by
  obtain ⟨hnode, hcount, -⟩ := hl.arena.unpersist s root
  have hpos := h.positive List.mem_cons_self
  refine ⟨if_neg (not_le.mpr hpos), ?_, ?_⟩
  · intro hash
    have hold := h.count hash
    rw [hcount]
    by_cases he : hash = root
    · subst he
      rw [List.count_cons_self] at hold
      rw [Function.update_self]
      push_cast at hold
      omega
    · rw [List.count_cons_of_ne (Ne.symm he)] at hold
      rw [Function.update_of_ne he]
      exact hold
  · intro hash hmem
    exact complete_of_node (fun other => congrFun hnode other) (h.complete hash (List.mem_cons_of_mem _ hmem))

/-- The loop takes the oldest roots away, none of which has a count of zero. -/
theorem retire_held (hl : a.Lawful libs) {window : LedgerStateWindow}
    (hhashes : Hashes a.arenaRootHash window hashes) (h : a.Held s hashes) : ∃ t hashes',
    retire a s window = .ok (t, trimWindow window) ∧ Hashes a.arenaRootHash (trimWindow window) hashes' ∧
      a.Held t hashes' ∧ hashes'.Sublist hashes ∧ a.db t = a.db s := by
  induction hhashes generalizing s with
  | nil => exact ⟨s, [], rfl, .nil, h, .slnil, rfl⟩
  | @cons entry hash window hashes hhash hrest ih =>
      rw [retire, trimWindow]
      by_cases hlong : (entry :: window).length > ledgerStateRetention
      · obtain ⟨hunpersist, hheld⟩ := h.unpersist hl
        obtain ⟨t, hashes', hretire, hhashes', ht, hsub, hdb⟩ := ih hheld
        rw [if_pos hlong, if_pos hlong, hhash]
        refine ⟨t, hashes', ?_, hhashes', ht, hsub.cons hash, hdb.trans (hl.db_unpersist s hash)⟩
        dsimp only
        exact bind_ok.mpr ⟨hash, rfl, bind_ok.mpr ⟨_, hunpersist, hretire⟩⟩
      · rw [if_neg hlong, if_neg hlong]
        exact ⟨s, hash :: hashes, rfl, .cons hhash hrest, h, .refl _, rfl⟩

theorem ArenaLibs.Held.swept (hl : a.Lawful libs) (h : a.Held s hashes)
    (hdb : a.Held (a.openDb (a.db s)) hashes) (hswept : a.Swept s s') :
    a.Held s' hashes ∧ a.Held (a.openDb (a.db s')) hashes := by
  refine ⟨h.spares hswept.spares, ?_, ?_⟩
  · intro hash
    have hcount := h.count hash
    have hold := hdb.count hash
    rw [← hl.flushed_open, hl.stored_db, hl.db_open, ← hl.stored_db] at hold
    rw [← hl.flushed_open, hl.stored_db, hl.db_open, ← hl.stored_db]
    rcases hswept.stored hash with hsame | hflushed
    · rw [hsame]
      exact hold
    · rw [hflushed]
      exact hcount
  · intro hash hmem
    refine complete_of_kept (hdb.complete hash hmem) fun other hreach object => ?_
    rw [hl.node_open, hl.node_open]
    exact hswept.node hash (h.positive hmem) other hreach object

end Held

section Resuming

variable {libs} {a} {s : a.backend.State} {hashes : List ArenaHash} {window : LedgerStateWindow}

theorem windowRootCounts_total {arenaRootHash : Bytes → LedgerVersion → Except String ArenaHash}
    (h : Hashes arenaRootHash window hashes) : ∃ wanted, windowRootCounts arenaRootHash window = .ok wanted := by
  rw [windowRootCounts]
  generalize (∅ : RootCounts) = wanted
  induction h generalizing wanted with
  | nil => exact ⟨wanted, rfl⟩
  | cons hhash _ ih =>
      obtain ⟨wanted', hwanted⟩ := ih _
      refine ⟨wanted', ?_⟩
      rw [List.foldlM_cons, hhash]
      exact hwanted

theorem hash_mem {arenaRootHash : Bytes → LedgerVersion → Except String ArenaHash}
    (h : Hashes arenaRootHash window hashes) {entry : Bytes × LedgerVersion} {hash : ArenaHash}
    (hentry : entry ∈ window) (hhash : arenaRootHash entry.1 entry.2 = .ok hash) : hash ∈ hashes := by
  induction h with
  | nil => exact absurd hentry List.not_mem_nil
  | cons hfirst _ ih =>
      rcases List.mem_cons.mp hentry with rfl | hrest
      · rw [Except.ok.inj (hhash.symm.trans hfirst)]
        exact List.mem_cons_self
      · exact List.mem_cons_of_mem _ (ih hrest)

theorem hashes_unique {arenaRootHash : Bytes → LedgerVersion → Except String ArenaHash}
    {hashes' : List ArenaHash} (h : Hashes arenaRootHash window hashes)
    (h' : Hashes arenaRootHash window hashes') : hashes = hashes' := by
  induction h generalizing hashes' with
  | nil =>
      cases h'
      rfl
  | cons hhash _ ih =>
      cases h' with
      | cons hhash' hrest' =>
          obtain rfl := Except.ok.inj (hhash.symm.trans hhash')
          rw [ih hrest']

theorem raiseRootCounts_idle (hl : a.Lawful libs) (hs : a.arena.Flushed s) {wanted : RootCounts}
    (h : ∀ entry ∈ wanted.toList, (entry.2 : Int) ≤ a.arena.rootCount s entry.1) (fuel : Nat) :
    ∃ repair, raiseRootCounts a.backend fuel s wanted =
      some (repair, a.backend.flushAllChangesToDb s) := by
  have hloop : ∀ (entries : List (ArenaHash × Nat)) (repair : RootCountRepair),
      (∀ entry ∈ entries, (entry.2 : Int) ≤ a.arena.rootCount s entry.1) →
      entries.foldlM (raiseRoot a.backend fuel (a.backend.getRoots s)) (s, repair) = some (s, repair) := by
    intro entries
    induction entries with
    | nil => exact fun _ _ => rfl
    | cons entry entries ih =>
        intro repair hentries
        have hhad := lookup_roots hl.arena hs entry.1
        have hle := hentries entry List.mem_cons_self
        have hmissing : entry.2 - ((a.backend.getRoots s).lookup entry.1).getD 0 = 0 := by omega
        have hstep : raiseRoot a.backend fuel (a.backend.getRoots s) (s, repair) entry = some (s, repair) :=
          if_pos hmissing
        rw [List.foldlM_cons, hstep]
        exact ih repair (fun other hother => hentries other (List.mem_cons_of_mem _ hother))
  have hall := hloop wanted.toList
    ⟨0, 0, 0, ((a.backend.getRoots s).filter (fun root => !wanted.contains root.1)).length⟩ h
  exact ⟨_, by rw [raiseRootCounts, hall]; rfl⟩

theorem repair_idle (hl : a.Lawful libs) (hs : a.arena.Flushed s) (hhashes : Hashes a.arenaRootHash window hashes)
    (h : a.Held s hashes) : ∃ wanted, windowRootCounts a.arenaRootHash window = .ok wanted ∧
      ∀ fuel, ∃ repair, raiseRootCounts a.backend fuel s wanted =
        some (repair, a.backend.flushAllChangesToDb s) := by
  obtain ⟨wanted, hwanted⟩ := windowRootCounts_total hhashes
  obtain ⟨hashes', hhashes', htally⟩ := windowRootCounts_ok hwanted
  obtain rfl := hashes_unique hhashes hhashes'
  refine ⟨wanted, hwanted, raiseRootCounts_idle hl hs fun entry hentry => ?_⟩
  have hrow := mem_toList.mp hentry
  have hcount := h.count entry.1
  rw [htally] at hrow
  split at hrow
  · have hmod := Nat.mod_le (hashes.count entry.1) (2 ^ 32)
    rw [Option.some_inj.mp hrow] at hmod
    omega
  · cases hrow

theorem retainPersisted_all (hl : a.Lawful libs) (hs : a.arena.Flushed s)
    (hhashes : Hashes a.arenaRootHash window hashes) (h : a.Held s hashes) :
    retainPersisted a s window = window := by
  refine List.filter_eq_self.mpr fun entry hentry => ?_
  obtain ⟨i, hi⟩ := List.mem_iff_getElem?.mp hentry
  obtain ⟨hlength, hpairs⟩ := List.forall₂_iff_get.mp hhashes
  obtain ⟨hlt, rfl⟩ := List.getElem?_eq_some_iff.mp hi
  have hhash := hpairs i hlt (hlength ▸ hlt)
  rw [List.get_eq_getElem, List.get_eq_getElem] at hhash
  have hpos := h.positive (List.getElem_mem (hlength ▸ hlt))
  obtain ⟨count, hcount⟩ := Int.eq_ofNat_of_zero_le (le_of_lt hpos)
  have hroot := (hl.arena.mem_roots s hs _ count).mpr ⟨by omega, hcount⟩
  rw [hhash]
  exact List.elem_eq_true_of_mem (List.mem_map_of_mem (f := Prod.fst) hroot)

end Resuming

end Nightfrost.LedgerArena
