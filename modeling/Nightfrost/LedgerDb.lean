import Nightfrost.Partitions
import Nightfrost.Domain
import Nightfrost.ExceptFold
import Nightfrost.PagedWalks

namespace Nightfrost.LedgerDb

open ByteOrder Tables Partitions Domain ExceptFold Pages PagedWalks

abbrev ArenaHash := ByteArr 32

inductive DbPart
  | nodes
  | roots
  deriving DecidableEq

abbrev FjallLedgerDb := Keyspace (fun _ : DbPart => Bytes)

structure ArenaLib where
  Object : Type
  serialize : Object → Bytes
  deserialize : Bytes → Option Object
  deserializeHash : Bytes → Option ArenaHash

structure ArenaLib.Lawful (lib : ArenaLib) : Prop where
  object : ∀ object, lib.deserialize (lib.serialize object) = some object
  hash : ∀ hash : ArenaHash, lib.deserializeHash hash.val = some hash

/-- `Option::expect`, whose panic is an error here. -/
def orPanic {α : Type} (message : String) : Option α → Except String α
  | some a => .ok a
  | none => .error message

inductive Update (Object : Type)
  | insertNode (object : Object)
  | deleteNode
  | setRootCount (count : UInt32)

variable (lib : ArenaLib)

def deserializeObject (bytes : Bytes) : Except String lib.Object :=
  orPanic "cannot deserialize OnDiskObject" (lib.deserialize bytes)

def deserializeHash (bytes : Bytes) : Except String ArenaHash :=
  orPanic "cannot deserialize ArenaHash" (lib.deserializeHash bytes)

def decodeCount (message : String) (bytes : Bytes) : Except String UInt32 :=
  if bytes.length = 4 then .ok (UInt32.ofNat (fromBe bytes)) else .error message

def getNode (db : FjallLedgerDb) (key : ArenaHash) : Except String (Option lib.Object) :=
  match (db .nodes)[key.val]? with
  | some bytes => (deserializeObject lib bytes).map some
  | none => .ok none

def insertNode (db : FjallLedgerDb) (key : ArenaHash) (object : lib.Object) : FjallLedgerDb :=
  commit db [.put .nodes key.val (lib.serialize object)]

def deleteNode (db : FjallLedgerDb) (key : ArenaHash) : FjallLedgerDb :=
  commit db [.remove .nodes key.val]

def updateOp (update : ArenaHash × Update lib.Object) : Op (fun _ : DbPart => Bytes) :=
  match update.2 with
  | .insertNode object => .put .nodes update.1.val (lib.serialize object)
  | .deleteNode => .remove .nodes update.1.val
  | .setRootCount count =>
      if count = 0 then .remove .roots update.1.val
      else .put .roots update.1.val (be 4 count.toNat)

def batchUpdate (db : FjallLedgerDb) (updates : List (ArenaHash × Update lib.Object)) :
    FjallLedgerDb :=
  commit db (updates.map (updateOp lib))

def batchGetNodes (db : FjallLedgerDb) (keys : List ArenaHash) :
    Except String (List (ArenaHash × Option lib.Object)) :=
  keys.mapM (fun key => (getNode lib db key).map (fun node => (key, node)))

def getRootCount (db : FjallLedgerDb) (key : ArenaHash) : Except String UInt32 :=
  match (db .roots)[key.val]? with
  | some bytes => decodeCount "4-byte root count" bytes
  | none => .ok 0

def setRootCount (db : FjallLedgerDb) (key : ArenaHash) (count : UInt32) : FjallLedgerDb :=
  if count > 0 then commit db [.put .roots key.val (be 4 count.toNat)]
  else commit db [.remove .roots key.val]

def rootOf (row : Bytes × Bytes) : Except String (ArenaHash × UInt32) := do
  let count ← decodeCount "4-byte count" row.2
  let key ← deserializeHash lib row.1
  pure (key, count)

def getRoots (db : FjallLedgerDb) : Except String (List (ArenaHash × UInt32)) :=
  (db .roots).toList.mapM (rootOf lib)

def nodeOf (row : Bytes × Bytes) : Except String (ArenaHash × lib.Object) := do
  let key ← deserializeHash lib row.1
  let object ← deserializeObject lib row.2
  pure (key, object)

def scanLower : Option ArenaHash → Bound
  | some handle => .excluded handle.val
  | none => .unbounded

def scan (db : FjallLedgerDb) (resumeFrom : Option ArenaHash) (batchSize : Nat) :
    Except String (List (ArenaHash × lib.Object) × Option ArenaHash) := do
  let batch ← ((range (db .nodes) (scanLower resumeFrom) .unbounded).take batchSize).mapM (nodeOf lib)
  pure (batch, batch.getLast?.map Prod.fst)

def applyUpdate (db : FjallLedgerDb) (update : ArenaHash × Update lib.Object) : FjallLedgerDb :=
  match update.2 with
  | .insertNode object => insertNode lib db update.1 object
  | .deleteNode => deleteNode db update.1
  | .setRootCount count => setRootCount db update.1 count

inductive Reachable : FjallLedgerDb → Prop
  | empty : Reachable (fun _ => ∅)
  | insertNode {db : FjallLedgerDb} (h : Reachable db) (key : ArenaHash) (object : lib.Object) :
      Reachable (insertNode lib db key object)
  | deleteNode {db : FjallLedgerDb} (h : Reachable db) (key : ArenaHash) :
      Reachable (deleteNode db key)
  | setRootCount {db : FjallLedgerDb} (h : Reachable db) (key : ArenaHash) (count : UInt32) :
      Reachable (setRootCount db key count)
  | batchUpdate {db : FjallLedgerDb} (h : Reachable db)
      (updates : List (ArenaHash × Update lib.Object)) : Reachable (batchUpdate lib db updates)

section Plain

/-- What the database is for: a node, or none, and a root count for every hash. -/
structure PlainDb (Object : Type) where
  node : ArenaHash → Option Object
  rootCount : ArenaHash → UInt32

def PlainDb.update {Object : Type} (plain : PlainDb Object) (update : ArenaHash × Update Object) :
    PlainDb Object :=
  match update.2 with
  | .insertNode object => { plain with node := Function.update plain.node update.1 (some object) }
  | .deleteNode => { plain with node := Function.update plain.node update.1 none }
  | .setRootCount count =>
      { plain with rootCount := Function.update plain.rootCount update.1 count }

structure Refines (db : FjallLedgerDb) (plain : PlainDb lib.Object) : Prop where
  node : ∀ key, getNode lib db key = .ok (plain.node key)
  rootCount : ∀ key, getRootCount db key = .ok (plain.rootCount key)

end Plain

section Updates

variable {lib} {db : FjallLedgerDb}

theorem applyUpdate_eq (db : FjallLedgerDb) (update : ArenaHash × Update lib.Object) :
    applyUpdate lib db update = (updateOp lib update).apply db := by
  obtain ⟨key, update⟩ := update
  cases update with
  | insertNode object => rfl
  | deleteNode => rfl
  | setRootCount count =>
      simp only [applyUpdate, setRootCount, updateOp]
      by_cases hzero : count = 0
      · subst hzero
        rfl
      · rw [if_neg hzero, if_pos (UInt32.pos_iff_ne_zero.mpr hzero)]
        rfl

theorem batchUpdate_eq (db : FjallLedgerDb) (updates : List (ArenaHash × Update lib.Object)) :
    batchUpdate lib db updates = updates.foldl (applyUpdate lib) db := by
  induction updates generalizing db with
  | nil => rfl
  | cons update updates ih =>
      rw [List.foldl_cons, ← ih, applyUpdate_eq]
      rfl

theorem Reachable.induct {I : FjallLedgerDb → Prop} (hempty : I (fun _ => ∅))
    (hstep : ∀ db update, I db → I (applyUpdate lib db update)) (h : Reachable lib db) : I db := by
  induction h with
  | empty => exact hempty
  | insertNode h key object ih => exact hstep _ (key, .insertNode object) ih
  | deleteNode h key ih => exact hstep _ (key, .deleteNode) ih
  | setRootCount h key count ih => exact hstep _ (key, .setRootCount count) ih
  | batchUpdate h updates ih =>
      rw [batchUpdate_eq]
      exact List.foldlRecOn updates _ ih fun db hdb update _ => hstep db update hdb

end Updates

section Rows

variable {lib} {db : FjallLedgerDb} {key : ArenaHash}

def nodeRow (lib : ArenaLib) (node : ArenaHash × lib.Object) : Bytes × Bytes :=
  (node.1.val, lib.serialize node.2)

def rootRow (root : ArenaHash × UInt32) : Bytes × Bytes := (root.1.val, be 4 root.2.toNat)

/-- The rows are those of nodes and of roots with a positive count. -/
structure Sound (lib : ArenaLib) (db : FjallLedgerDb) : Prop where
  nodes : ∀ k v, (db .nodes)[k]? = some v → ∃ node, nodeRow lib node = (k, v)
  roots : ∀ k v, (db .roots)[k]? = some v → ∃ root, root.2 > 0 ∧ rootRow root = (k, v)

theorem Sound.update (h : Sound lib db) (update : ArenaHash × Update lib.Object) :
    Sound lib (applyUpdate lib db update) := by
  obtain ⟨key, update⟩ := update
  cases update with
  | insertNode object =>
      refine ⟨fun k v hrow => ?_, h.roots⟩
      have hget : (if key.val = k then some (lib.serialize object) else (db .nodes)[k]?) = some v :=
        (get_insert _ _ _ _).symm.trans hrow
      split at hget
      · rename_i hk
        subst hk
        exact ⟨(key, object), Prod.ext rfl (Option.some_inj.mp hget)⟩
      · exact h.nodes k v hget
  | deleteNode =>
      refine ⟨fun k v hrow => ?_, h.roots⟩
      have hget : (if key.val = k then none else (db .nodes)[k]?) = some v :=
        (get_erase _ _ _).symm.trans hrow
      split at hget
      · cases hget
      · exact h.nodes k v hget
  | setRootCount count =>
      change Sound lib (setRootCount db key count)
      rw [setRootCount]
      split
      · rename_i hcount
        refine ⟨h.nodes, fun k v hrow => ?_⟩
        have hget : (if key.val = k then some (be 4 count.toNat) else (db .roots)[k]?) = some v :=
          (get_insert _ _ _ _).symm.trans hrow
        split at hget
        · rename_i hk
          subst hk
          exact ⟨(key, count), hcount, Prod.ext rfl (Option.some_inj.mp hget)⟩
        · exact h.roots k v hget
      · refine ⟨h.nodes, fun k v hrow => ?_⟩
        have hget : (if key.val = k then none else (db .roots)[k]?) = some v :=
          (get_erase _ _ _).symm.trans hrow
        split at hget
        · cases hget
        · exact h.roots k v hget

theorem Reachable.sound (h : Reachable lib db) : Sound lib db :=
  h.induct ⟨fun k v hrow => by simp at hrow, fun k v hrow => by simp at hrow⟩
    fun _ update hdb => hdb.update update

theorem decodeCount_be (message : String) (count : UInt32) :
    decodeCount message (be 4 count.toNat) = .ok count := by
  have hlt : count.toNat < 256 ^ 4 := count.toNat_lt
  rw [decodeCount, if_pos (be_length 4 _), fromBe_be hlt, UInt32.ofNat_toNat]

theorem nodeOf_row (hl : lib.Lawful) (node : ArenaHash × lib.Object) :
    nodeOf lib (nodeRow lib node) = .ok node := by
  simp [nodeOf, nodeRow, deserializeHash, deserializeObject, hl.hash, hl.object, orPanic,
    bind, Except.bind, pure, Except.pure]

theorem nodeRow_injective (hl : lib.Lawful) : Function.Injective (nodeRow lib) := by
  intro a b hab
  have hsame := (nodeOf_row hl a).symm.trans ((congrArg (nodeOf lib) hab).trans (nodeOf_row hl b))
  exact Except.ok.inj hsame

theorem rootOf_row (hl : lib.Lawful) (root : ArenaHash × UInt32) :
    rootOf lib (rootRow root) = .ok root := by
  simp [rootOf, rootRow, deserializeHash, decodeCount_be, hl.hash, orPanic, bind, Except.bind, pure,
    Except.pure]

theorem mapM_map_ok {α β : Type} {f : α → Except String β} {g : β → α} (h : ∀ b, f (g b) = .ok b)
    (bs : List β) : (bs.map g).mapM f = .ok bs := by
  induction bs with
  | nil => rfl
  | cons b bs ih =>
      rw [List.map_cons, List.mapM_cons, h, ih]
      rfl

theorem exists_map_eq {α β : Type} {g : β → α} {as : List α} (h : ∀ a ∈ as, ∃ b, g b = a) :
    ∃ bs : List β, bs.map g = as := by
  have hrange : as ∈ Set.range (List.map g) := by
    rw [Set.range_list_map]
    exact h
  exact hrange

theorem getNode_ok (hl : lib.Lawful) (h : Sound lib db) (key : ArenaHash) :
    ∃ node, getNode lib db key = .ok node ∧
      ∀ object, node = some object ↔ (db .nodes)[key.val]? = some (lib.serialize object) := by
  cases hrow : (db .nodes)[key.val]? with
  | none => exact ⟨none, by rw [getNode, hrow], by simp⟩
  | some bytes =>
      obtain ⟨⟨key', object⟩, hnode⟩ := h.nodes _ _ hrow
      obtain ⟨-, rfl⟩ := Prod.mk.inj hnode
      refine ⟨some object, ?_, ?_⟩
      · simp [getNode, hrow, deserializeObject, hl.object, orPanic, Except.map]
      · intro object'
        rw [Option.some_inj, Option.some_inj]
        refine ⟨congrArg _, fun he => ?_⟩
        have hsame := congrArg lib.deserialize he
        rw [hl.object, hl.object] at hsame
        exact Option.some_inj.mp hsame

theorem exists_nodes (h : Sound lib db) : ∃ nodes : List (ArenaHash × lib.Object),
    nodes.map (nodeRow lib) = (db .nodes).toList :=
  exists_map_eq fun row hrow => h.nodes row.1 row.2 (mem_rows.mp hrow)

theorem mem_nodes (hl : lib.Lawful) (h : Sound lib db) {nodes : List (ArenaHash × lib.Object)}
    (hnodes : nodes.map (nodeRow lib) = (db .nodes).toList) {node : ArenaHash × lib.Object} :
    node ∈ nodes ↔ getNode lib db node.1 = .ok (some node.2) := by
  obtain ⟨found, hget, hfound⟩ := getNode_ok hl h node.1
  rw [hget, Except.ok.injEq, hfound, ← mem_rows, ← hnodes]
  exact (List.mem_map_of_injective (nodeRow_injective hl)).symm

theorem getRootCount_ok (h : Sound lib db) (key : ArenaHash) : ∃ count,
    getRootCount db key = .ok count ∧ (key.val ∈ db .roots ↔ count > 0) ∧
      ∀ count', count' > 0 → (count' = count ↔ (db .roots)[key.val]? = some (be 4 count'.toNat)) := by
  cases hrow : (db .roots)[key.val]? with
  | none =>
      have hnot : key.val ∉ db .roots := by
        rw [mem_iff, hrow]
        simp
      refine ⟨0, by rw [getRootCount, hrow], by simp [hnot], ?_⟩
      intro count' hcount'
      exact iff_of_false (UInt32.pos_iff_ne_zero.mp hcount') (by simp)
  | some bytes =>
      obtain ⟨⟨key', count⟩, hcount, hroot⟩ := h.roots _ _ hrow
      obtain ⟨-, rfl⟩ := Prod.mk.inj hroot
      refine ⟨count, by rw [getRootCount, hrow]; exact decodeCount_be _ _, ?_, ?_⟩
      · exact iff_of_true (mem_iff.mpr ⟨_, hrow⟩) hcount
      · intro count' _
        rw [Option.some_inj]
        refine ⟨fun he => by rw [he], fun he => ?_⟩
        have hsame := (decodeCount_be "" count).symm.trans
          ((congrArg (decodeCount "") he).trans (decodeCount_be "" count'))
        exact (Except.ok.inj hsame).symm

theorem getRoots_ok (hl : lib.Lawful) (h : Sound lib db) : ∃ roots, getRoots lib db = .ok roots ∧
    (roots.map Prod.fst).Nodup ∧
    ∀ key count, (key, count) ∈ roots ↔ getRootCount db key = .ok count ∧ count > 0 := by
  obtain ⟨roots, hroots⟩ : ∃ roots : List {root : ArenaHash × UInt32 // root.2 > 0},
      roots.map (fun root => rootRow root.val) = (db .roots).toList := by
    refine exists_map_eq fun row hrow => ?_
    obtain ⟨root, hcount, heq⟩ := h.roots row.1 row.2 (mem_rows.mp hrow)
    exact ⟨⟨root, hcount⟩, heq⟩
  have hrows : (roots.map Subtype.val).map rootRow = (db .roots).toList := by
    rw [List.map_map]
    exact hroots
  refine ⟨roots.map Subtype.val, ?_, ?_, ?_⟩
  · rw [getRoots, ← hrows]
    exact mapM_map_ok (rootOf_row hl) _
  · have hkeys : ((roots.map Subtype.val).map rootRow).Pairwise (fun a b => compare a.1 b.1 = .lt) := by
      rw [hrows]
      exact rows_sorted _
    rw [List.pairwise_map] at hkeys
    refine List.pairwise_map.mpr (hkeys.imp fun {a b} hlt he => ?_)
    rw [rootRow, rootRow, he, Std.ReflOrd.compare_self] at hlt
    cases hlt
  · intro key count
    obtain ⟨count', hget, -, hcount'⟩ := getRootCount_ok h key
    rw [hget, Except.ok.injEq]
    constructor
    · intro hmem
      obtain ⟨⟨root, hpos⟩, -, heq⟩ := List.mem_map.mp hmem
      obtain rfl : root = (key, count) := heq
      refine ⟨((hcount' count hpos).mpr ?_).symm, hpos⟩
      rw [← mem_rows, ← hrows]
      exact List.mem_map_of_mem hmem
    · rintro ⟨rfl, hpos⟩
      have hrow := (hcount' count' hpos).mp rfl
      rw [← mem_rows, ← hrows] at hrow
      obtain ⟨root, hmem, heq⟩ := List.mem_map.mp hrow
      have hsame := (rootOf_row hl root).symm.trans ((congrArg (rootOf lib) heq).trans
        (rootOf_row hl (key, count')))
      rwa [← Except.ok.inj hsame]

end Rows

section Refinement

variable {lib} {db : FjallLedgerDb} {plain : PlainDb lib.Object}

/-- Each update does to the tables what it does to the plain maps. -/
theorem Refines.update (hl : lib.Lawful) (h : Refines lib db plain)
    (update : ArenaHash × Update lib.Object) :
    Refines lib (applyUpdate lib db update) (plain.update update) := by
  obtain ⟨key, update⟩ := update
  cases update with
  | insertNode object =>
      refine ⟨fun key' => ?_, h.rootCount⟩
      have hrow : (applyUpdate lib db (key, .insertNode object) .nodes)[key'.val]? =
          if key.val = key'.val then some (lib.serialize object) else (db .nodes)[key'.val]? :=
        get_insert _ _ _ _
      by_cases hk : key' = key
      · subst hk
        simp [getNode, hrow, PlainDb.update, deserializeObject, hl.object, orPanic, Except.map]
      · have hne : key.val ≠ key'.val := fun he => hk (Subtype.ext he.symm)
        have hplain : (plain.update (key, .insertNode object)).node key' = plain.node key' :=
          Function.update_of_ne hk _ _
        rw [hplain, ← h.node, getNode, hrow, if_neg hne, getNode]
  | deleteNode =>
      refine ⟨fun key' => ?_, h.rootCount⟩
      have hrow : (applyUpdate lib db (key, .deleteNode) .nodes)[key'.val]? =
          if key.val = key'.val then none else (db .nodes)[key'.val]? := get_erase _ _ _
      by_cases hk : key' = key
      · subst hk
        simp [getNode, hrow, PlainDb.update]
      · have hne : key.val ≠ key'.val := fun he => hk (Subtype.ext he.symm)
        have hplain : (plain.update (key, .deleteNode)).node key' = plain.node key' :=
          Function.update_of_ne hk _ _
        rw [hplain, ← h.node, getNode, hrow, if_neg hne, getNode]
  | setRootCount count =>
      have hnodes : (applyUpdate lib db (key, .setRootCount count)) .nodes = db .nodes := by
        simp only [applyUpdate, setRootCount]
        split <;> rfl
      have hrow : ∀ key' : ArenaHash, ((applyUpdate lib db (key, .setRootCount count)) .roots)[key'.val]? =
          if key.val = key'.val then (if count > 0 then some (be 4 count.toNat) else none)
          else (db .roots)[key'.val]? := by
        intro key'
        simp only [applyUpdate, setRootCount]
        split
        · exact get_insert _ _ _ _
        · exact get_erase _ _ _
      refine ⟨fun key' => ?_, fun key' => ?_⟩
      · rw [getNode, hnodes]
        exact h.node key'
      · by_cases hk : key' = key
        · subst hk
          by_cases hcount : count > 0
          · simp [getRootCount, hrow, PlainDb.update, hcount, decodeCount_be]
          · have hzero : count = 0 := by
              by_contra hne
              exact hcount (UInt32.pos_iff_ne_zero.mpr hne)
            rw [getRootCount, hrow, if_pos rfl, if_neg hcount]
            simp [PlainDb.update, hzero]
        · have hne : key.val ≠ key'.val := fun he => hk (Subtype.ext he.symm)
          have hplain : (plain.update (key, .setRootCount count)).rootCount key' = plain.rootCount key' :=
            Function.update_of_ne hk _ _
          rw [hplain, ← h.rootCount, getRootCount, hrow, if_neg hne, getRootCount]

theorem Refines.batch (hl : lib.Lawful) (h : Refines lib db plain)
    (updates : List (ArenaHash × Update lib.Object)) :
    Refines lib (batchUpdate lib db updates) (updates.foldl PlainDb.update plain) := by
  rw [batchUpdate_eq]
  induction updates generalizing db plain with
  | nil => exact h
  | cons update updates ih => exact ih (h.update hl update)

theorem Reachable.refines (hl : lib.Lawful) (h : Reachable lib db) : ∃ plain, Refines lib db plain := by
  refine h.induct (I := fun db => ∃ plain, Refines lib db plain) ?_ ?_
  · exact ⟨⟨fun _ => none, fun _ => 0⟩, fun key => by simp [getNode], fun key => by simp [getRootCount]⟩
  · rintro db update ⟨plain, hplain⟩
    exact ⟨_, hplain.update hl update⟩

theorem batchGetNodes_ok (h : Refines lib db plain) (keys : List ArenaHash) :
    batchGetNodes lib db keys = .ok (keys.map (fun key => (key, plain.node key))) := by
  induction keys with
  | nil => rfl
  | cons key keys ih =>
      rw [batchGetNodes] at ih
      rw [batchGetNodes, List.mapM_cons, h.node, ih]
      rfl

end Refinement

section Scans

variable {lib} {batchSize : Nat}

def hashBefore (a b : ArenaHash) : Prop := compare a.val b.val = .lt

instance : DecidableRel hashBefore := fun a b => inferInstanceAs (Decidable (compare a.val b.val = .lt))

theorem hashBefore_irrefl (a : ArenaHash) : ¬ hashBefore a a := by
  simp [hashBefore, Std.ReflOrd.compare_self]

theorem hashBefore_trans (a b c : ArenaHash) : hashBefore a b → hashBefore b c → hashBefore a c :=
  Std.TransCmp.lt_trans

theorem hashBefore_asymm (a b : ArenaHash) (h : hashBefore a b) : ¬ hashBefore b a :=
  fun h' => hashBefore_irrefl a (hashBefore_trans a b a h h')

/-- A walk of scans, each with the handle of the page before, until a page is
empty; the database may change from page to page. -/
inductive ScanWalk (lib : ArenaLib) (batchSize : Nat) (dbs : Nat → FjallLedgerDb) :
    Nat → Option ArenaHash → List (List (ArenaHash × lib.Object)) → Prop
  | last {t : Nat} {resume handle : Option ArenaHash}
      (hscan : scan lib (dbs t) resume batchSize = .ok ([], handle)) :
      ScanWalk lib batchSize dbs t resume [[]]
  | next {t : Nat} {resume handle : Option ArenaHash} {page : List (ArenaHash × lib.Object)}
      {pages : List (List (ArenaHash × lib.Object))}
      (hscan : scan lib (dbs t) resume batchSize = .ok (page, handle)) (hne : page ≠ [])
      (h : ScanWalk lib batchSize dbs (t + 1) handle pages) :
      ScanWalk lib batchSize dbs t resume (page :: pages)

variable {db : FjallLedgerDb} {dbs : Nat → FjallLedgerDb} {nodes : List (ArenaHash × lib.Object)}

theorem nodes_sorted (hnodes : nodes.map (nodeRow lib) = (db .nodes).toList) :
    Sorted hashBefore nodes := by
  have hrows := rows_sorted (db .nodes)
  rw [← hnodes, List.pairwise_map] at hrows
  exact hrows

theorem scan_ok (hl : lib.Lawful) (hnodes : nodes.map (nodeRow lib) = (db .nodes).toList)
    (resume : Option ArenaHash) (batchSize : Nat) :
    scan lib db resume batchSize = .ok ((after hashBefore Prod.fst resume nodes).take batchSize,
      ((after hashBefore Prod.fst resume nodes).take batchSize).getLast?.map Prod.fst) := by
  have hrange : range (db .nodes) (scanLower resume) .unbounded =
      (after hashBefore Prod.fst resume nodes).map (nodeRow lib) := by
    rw [range, ← hnodes, List.filter_map]
    cases resume with
    | none => simp [scanLower, Bound.above, Bound.below, after, Function.comp_def]
    | some handle =>
        rw [after]
        refine congrArg _ (List.filter_congr fun node _ => ?_)
        rw [Bool.eq_iff_iff, decide_eq_true_iff]
        simp [scanLower, Bound.above, Bound.below, nodeRow, hashBefore]
  rw [scan, hrange, ← List.map_take, mapM_map_ok (nodeOf_row hl)]
  rfl

def Held (lib : ArenaLib) (dbs : Nat → FjallLedgerDb) (t : Nat)
    (visits : List (Visit ArenaHash lib.Object)) : Prop :=
  ∀ i visit, visits[i]? = some visit → visit.held.map (nodeRow lib) = (dbs (t + i) .nodes).toList

theorem Held.tail {t : Nat} {visit : Visit ArenaHash lib.Object}
    {visits : List (Visit ArenaHash lib.Object)}
    (hvisit : visit.held.map (nodeRow lib) = (dbs t .nodes).toList)
    (h : Held lib dbs (t + 1) visits) : Held lib dbs t (visit :: visits) := by
  intro i v hv
  cases i with
  | zero =>
      obtain rfl := Option.some_inj.mp hv
      exact hvisit
  | succ i =>
      have hrest := h i v hv
      rwa [Nat.add_assoc, Nat.add_comm 1 i] at hrest

theorem ScanWalk.visits (hl : lib.Lawful) (hdbs : ∀ t, Sound lib (dbs t)) (hbatch : 1 ≤ batchSize)
    {t : Nat} {resume : Option ArenaHash} {pages : List (List (ArenaHash × lib.Object))}
    (h : ScanWalk lib batchSize dbs t resume pages) : ∃ visits : List (Visit ArenaHash lib.Object),
      Visits hashBefore resume visits ∧ visits.map Visit.page = pages ∧ Held lib dbs t visits := by
  induction h with
  | @last t resume handle hscan =>
      obtain ⟨nodes, hnodes⟩ := exists_nodes (hdbs t)
      rw [scan_ok hl hnodes] at hscan
      obtain ⟨hpage, -⟩ := Prod.mk.inj (Except.ok.inj hscan)
      have hnone : after hashBefore Prod.fst resume nodes = [] := by
        rcases List.take_eq_nil_iff.mp hpage with hzero | hnil
        · omega
        · exact hnil
      refine ⟨[⟨nodes, after hashBefore Prod.fst resume nodes⟩], .final, ?_, ?_⟩
      · rw [List.map_singleton, hnone]
      · exact Held.tail hnodes (fun i v hv => by cases hv)
  | @next t resume handle page pages hscan hne h ih =>
      obtain ⟨nodes, hnodes⟩ := exists_nodes (hdbs t)
      rw [scan_ok hl hnodes] at hscan
      obtain ⟨rfl, rfl⟩ := Prod.mk.inj (Except.ok.inj hscan)
      obtain ⟨visits, hvisits, rfl, hheld⟩ := ih
      have hlast := List.getLast?_eq_some_getLast hne
      rw [hlast, Option.map_some] at hvisits
      exact ⟨⟨nodes, _⟩ :: visits, .next (List.take_prefix _ _) hlast hvisits, rfl, Held.tail hnodes hheld⟩

def remaining (resume : Option ArenaHash) : Nat :=
  256 ^ 32 - (resume.map (fun handle => fromBe handle.val + 1)).getD 0

theorem remaining_lt {resume : Option ArenaHash} {key : ArenaHash}
    (h : ∀ handle, resume = some handle → hashBefore handle key) :
    remaining (some key) < remaining resume := by
  have hkey : fromBe key.val < 256 ^ 32 := fromBe_lt (Nat.le_of_eq key.property)
  cases resume with
  | none =>
      simp only [remaining, Option.map_some, Option.map_none, Option.getD_some, Option.getD_none]
      omega
  | some handle =>
      have hhandle : fromBe handle.val < 256 ^ 32 := fromBe_lt (Nat.le_of_eq handle.property)
      have hlt : compare handle.val key.val = .lt := h handle rfl
      rw [← be_fromBe handle.property, ← be_fromBe key.property, compare_be hhandle hkey,
        Nat.compare_eq_lt] at hlt
      simp only [remaining, Option.map_some, Option.getD_some]
      omega

theorem exists_walk (hl : lib.Lawful) (hdbs : ∀ t, Sound lib (dbs t)) (batchSize n : Nat) :
    ∀ (t : Nat) (resume : Option ArenaHash), remaining resume < n →
      ∃ pages, ScanWalk lib batchSize dbs t resume pages := by
  induction n with
  | zero => intro t resume hn; omega
  | succ n ih =>
      intro t resume hn
      obtain ⟨nodes, hnodes⟩ := exists_nodes (hdbs t)
      have hscan := scan_ok hl hnodes resume batchSize
      cases hlast : ((after hashBefore Prod.fst resume nodes).take batchSize).getLast? with
      | none =>
          rw [List.getLast?_eq_none_iff.mp hlast] at hscan
          exact ⟨_, .last hscan⟩
      | some last =>
          have hmem := mem_after_iff.mp (List.mem_of_mem_take (List.mem_of_getLast? hlast))
          have hless := remaining_lt hmem.2
          obtain ⟨pages, hpages⟩ := ih (t + 1) (some last.1) (by omega)
          rw [hlast] at hscan
          refine ⟨_ :: pages, .next hscan ?_ hpages⟩
          intro hnil
          rw [hnil] at hlast
          cases hlast

/-- The database is the plain map of nodes and counts, and its scans go through
the nodes in key order, whatever changes between the pages. -/
theorem ledger_db_refines (hl : lib.Lawful) :
    (∀ db, Reachable lib db →
      (∀ updates, batchUpdate lib db updates = updates.foldl (applyUpdate lib) db) ∧
      (∃ plain, Refines lib db plain ∧
        (∀ keys, batchGetNodes lib db keys = .ok (keys.map (fun key => (key, plain.node key)))) ∧
        ∀ updates, Refines lib (batchUpdate lib db updates) (updates.foldl PlainDb.update plain)) ∧
      (∀ key, ∃ count, getRootCount db key = .ok count ∧ (key.val ∈ db .roots ↔ count > 0)) ∧
      ∃ roots, getRoots lib db = .ok roots ∧ (roots.map Prod.fst).Nodup ∧
        ∀ key count, (key, count) ∈ roots ↔ getRootCount db key = .ok count ∧ count > 0) ∧
    ∀ (dbs : Nat → FjallLedgerDb) (batchSize : Nat), (∀ t, Reachable lib (dbs t)) → 1 ≤ batchSize →
      (∃ pages, ScanWalk lib batchSize dbs 0 none pages) ∧
      ∀ pages, ScanWalk lib batchSize dbs 0 none pages →
        Sorted hashBefore pages.flatten ∧ (pages.flatten.map Prod.fst).Nodup ∧
        (∀ key object, (key, object) ∈ pages.flatten →
          ∃ t < pages.length, getNode lib (dbs t) key = .ok (some object)) ∧
        (∀ key, (∀ t < pages.length, ∃ object, getNode lib (dbs t) key = .ok (some object)) →
          (pages.flatten.map Prod.fst).count key = 1) ∧
        ∀ db, (∀ t, dbs t = db) → ∀ key object,
          (key, object) ∈ pages.flatten ↔ getNode lib db key = .ok (some object) := by
  constructor
  · intro db hdb
    obtain ⟨plain, hplain⟩ := hdb.refines hl
    refine ⟨batchUpdate_eq db, ⟨plain, hplain, batchGetNodes_ok hplain, hplain.batch hl⟩, fun key => ?_,
      getRoots_ok hl hdb.sound⟩
    obtain ⟨count, hget, hrow, -⟩ := getRootCount_ok hdb.sound key
    exact ⟨count, hget, hrow⟩
  · intro dbs batchSize hreachable hbatch
    have hdbs : ∀ t, Sound lib (dbs t) := fun t => (hreachable t).sound
    refine ⟨exists_walk hl hdbs batchSize _ 0 none (Nat.lt_succ_self _), ?_⟩
    intro pages hwalk
    obtain ⟨visits, hvisits, rfl, hheld⟩ := hwalk.visits hl hdbs hbatch
    have hmoment : ∀ visit ∈ visits, ∃ t < visits.length,
        visit.held.map (nodeRow lib) = (dbs t .nodes).toList := by
      intro visit hvisit
      obtain ⟨t, hlt, rfl⟩ := List.getElem_of_mem hvisit
      have hrows := hheld t _ (List.getElem?_eq_getElem hlt)
      rw [Nat.zero_add] at hrows
      exact ⟨t, hlt, hrows⟩
    have hsorted : ∀ visit ∈ visits, Sorted hashBefore visit.held := by
      intro visit hvisit
      obtain ⟨t, -, hrows⟩ := hmoment visit hvisit
      exact nodes_sorted hrows
    have hflat : (visits.map Visit.page).flatten = returned visits := List.flatMap_def.symm
    have hwhole := hvisits.sorted hashBefore_trans hsorted
    rw [hflat, List.length_map]
    refine ⟨hwhole, nodup_keys hashBefore_irrefl hwhole, ?_, ?_, ?_⟩
    · intro key object hmem
      obtain ⟨⟨visit, hvisit, hin, -⟩, -⟩ := hvisits.mem_returned hashBefore_trans hmem
      obtain ⟨t, hlt, hrows⟩ := hmoment visit hvisit
      exact ⟨t, hlt, (mem_nodes hl (hdbs t) hrows).mp hin⟩
    · intro key hpresent
      refine hvisits.count_eq_one hashBefore_irrefl hashBefore_trans hsorted (fun p hp => by cases hp) ?_
      intro visit hvisit
      obtain ⟨t, hlt, hrows⟩ := hmoment visit hvisit
      obtain ⟨object, hget⟩ := hpresent t hlt
      exact List.mem_map.mpr ⟨(key, object), (mem_nodes hl (hdbs t) hrows).mpr hget, rfl⟩
    · intro db hsame key object
      obtain ⟨nodes, hnodes⟩ := exists_nodes (hdbs 0)
      have hunchanged := hvisits.unchanged hashBefore_asymm hashBefore_trans (nodes_sorted hnodes) ?_
      · rw [hunchanged, ← hsame 0]
        exact mem_nodes hl (hdbs 0) hnodes
      · intro visit hvisit
        obtain ⟨t, -, hrows⟩ := hmoment visit hvisit
        rw [hsame t, ← hsame 0, ← hnodes] at hrows
        exact nodeRow_injective hl |>.list_map hrows

end Scans

section Samples

def plainLib : ArenaLib where
  Object := Bytes
  serialize object := object
  deserialize bytes := some bytes
  deserializeHash bytes := if h : bytes.length = 32 then some ⟨bytes, h⟩ else none

theorem plainLib_lawful : plainLib.Lawful := ⟨fun _ => rfl, fun hash => dif_pos hash.property⟩

def pairDb : FjallLedgerDb :=
  batchUpdate plainLib (fun _ => ∅) [(.filled 32 1, .insertNode [1]), (.filled 32 2, .insertNode [2]),
    (.filled 32 1, .setRootCount 2)]

/-- The node that the first handle names is deleted behind it. -/
def shrinkingDb (t : Nat) : FjallLedgerDb :=
  if t = 0 then pairDb else deleteNode pairDb (.filled 32 1)

theorem reachable_shrinkingDb (t : Nat) : Reachable plainLib (shrinkingDb t) := by
  rw [shrinkingDb]
  split
  · exact Reachable.empty.batchUpdate _
  · exact (Reachable.empty.batchUpdate _).deleteNode _

theorem ledger_db_refines_shrinking :
    getRootCount pairDb (.filled 32 1) = .ok 2 ∧
      (∃ roots, getRoots plainLib pairDb = .ok roots ∧ (.filled 32 1, 2) ∈ roots) ∧
      ∃ pages, ScanWalk plainLib 1 shrinkingDb 0 none pages ∧
        (pages.flatten.map Prod.fst).count (.filled 32 2) = 1 := by
  obtain ⟨hdb, hscan⟩ := ledger_db_refines plainLib_lawful
  obtain ⟨-, -, -, roots, hroots, -, hmem⟩ := hdb pairDb (reachable_shrinkingDb 0)
  obtain ⟨⟨pages, hpages⟩, hall⟩ := hscan shrinkingDb 1 reachable_shrinkingDb (Nat.le_refl 1)
  have hcount : getRootCount pairDb (.filled 32 1) = .ok 2 := by decide +kernel
  refine ⟨hcount, ⟨roots, hroots, (hmem _ _).mpr ⟨hcount, by decide⟩⟩, pages, hpages, ?_⟩
  obtain ⟨-, -, -, hstable, -⟩ := hall pages hpages
  refine hstable _ fun t _ => ⟨[2], ?_⟩
  rw [shrinkingDb]
  split <;> rfl

end Samples

end Nightfrost.LedgerDb
