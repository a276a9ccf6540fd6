import Nightfrost.JournalReader
import Nightfrost.Versions

namespace Nightfrost.FjallKeyspace

open ByteOrder Domain JournalFormat JournalReader Versions

structure TreeLib (T M : Type) where
  insert : Bytes → Bytes → Nat → T → T
  remove : Bytes → Nat → T → T
  removeWeak : Bytes → Nat → T → T
  get : T → Bytes → Option Bytes
  rotateMemtable : T → Option (T × M)
  clearActiveMemtable : T → T
  /-- The segments of flushed memtables take their place in the tree, all at once. -/
  registerSegments : List M → T → T
  memtableSeqno : M → Option Nat
  persistedSeqno : T → Option Nat
  highestMemtableSeqno : T → Option Nat
  highestSeqno : T → Option Nat
  create : T
  /-- The tree that is found on disk after a crash. -/
  reopen : T → T

/-- What a key was given; a tombstone gives it nothing. -/
abbrev Write := Version Bytes (Option Bytes)

/-- What a tree holds: the writes in its segments, the sealed memtables, oldest first,
and the writes in its active memtable. -/
structure TreeView (M : Type) where
  segments : List Write
  sealed : List M
  active : List Write

def TreeView.contents {M : Type} (writes : M → List Write) (view : TreeView M) : List Write :=
  view.segments ++ (view.sealed.flatMap writes ++ view.active)

structure TreeLib.Lawful {T M : Type} (lib : TreeLib T M) (view : T → TreeView M)
    (writes : M → List Write) : Prop where
  create : view lib.create = ⟨[], [], []⟩
  insert : ∀ key value seqno t, view (lib.insert key value seqno t) =
    { view t with active := (view t).active ++ [⟨key, some value, seqno⟩] }
  remove : ∀ key seqno t, view (lib.remove key seqno t) =
    { view t with active := (view t).active ++ [⟨key, none, seqno⟩] }
  removeWeak : ∀ key seqno t, view (lib.removeWeak key seqno t) =
    { view t with active := (view t).active ++ [⟨key, none, seqno⟩] }
  rotate_none : ∀ t, lib.rotateMemtable t = none ↔ (view t).active = []
  rotate_some : ∀ {t t' m}, lib.rotateMemtable t = some (t', m) → writes m = (view t).active ∧
    view t' = { view t with sealed := (view t).sealed ++ [m], active := [] }
  clear : ∀ t, view (lib.clearActiveMemtable t) = { view t with active := [] }
  register : ∀ {t ms rest}, (view t).sealed = ms ++ rest → view (lib.registerSegments ms t) =
    { view t with segments := (view t).segments ++ ms.flatMap writes, sealed := rest }
  reopen : ∀ t, view (lib.reopen t) = ⟨(view t).segments, [], []⟩
  memtableSeqno : ∀ m, lib.memtableSeqno m = highest (writes m)
  persistedSeqno : ∀ t, lib.persistedSeqno t = highest (view t).segments
  highestMemtableSeqno : ∀ t, lib.highestMemtableSeqno t =
    highest ((view t).sealed.flatMap writes ++ (view t).active)
  highestSeqno : ∀ t, lib.highestSeqno t = highest ((view t).contents writes)
  get : ∀ t key, lib.get t key = (newest ((view t).contents writes) key).bind (·.value)

def plainTrees : TreeLib (TreeView (List Write)) (List Write) where
  insert := fun key value seqno t => { t with active := t.active ++ [⟨key, some value, seqno⟩] }
  remove := fun key seqno t => { t with active := t.active ++ [⟨key, none, seqno⟩] }
  removeWeak := fun key seqno t => { t with active := t.active ++ [⟨key, none, seqno⟩] }
  get := fun t key => (newest (t.contents id) key).bind (·.value)
  rotateMemtable := fun t =>
    if t.active = [] then none
    else some ({ t with sealed := t.sealed ++ [t.active], active := [] }, t.active)
  clearActiveMemtable := fun t => { t with active := [] }
  registerSegments := fun ms t =>
    { t with segments := t.segments ++ ms.flatMap id, sealed := t.sealed.drop ms.length }
  memtableSeqno := highest
  persistedSeqno := fun t => highest t.segments
  highestMemtableSeqno := fun t => highest (t.sealed.flatMap id ++ t.active)
  highestSeqno := fun t => highest (t.contents id)
  create := ⟨[], [], []⟩
  reopen := fun t => ⟨t.segments, [], []⟩

theorem plainTrees_lawful : plainTrees.Lawful id id where
  create := rfl
  insert := fun _ _ _ _ => rfl
  remove := fun _ _ _ => rfl
  removeWeak := fun _ _ _ => rfl
  rotate_none := by
    intro t
    simp [plainTrees]
  rotate_some := by
    intro t t' m h
    simp only [plainTrees] at h
    split at h
    · cases h
    · cases h
      exact ⟨rfl, rfl⟩
  clear := fun _ => rfl
  register := by
    intro t ms rest h
    have hdrop : t.sealed.drop ms.length = rest := by
      have hsealed : t.sealed = ms ++ rest := h
      rw [hsealed, List.drop_left]
    simp [plainTrees, hdrop]
  reopen := fun _ => rfl
  memtableSeqno := fun _ => rfl
  persistedSeqno := fun _ => rfl
  highestMemtableSeqno := fun _ => rfl
  highestSeqno := fun _ => rfl
  get := fun _ _ => rfl

abbrev Watermarks := String → Option Nat

/-- A journal that is no longer written, with the highest number of each partition
that it waits for. -/
structure SealedJournal where
  file : Bytes
  watermarks : Watermarks

/-- The writer of the active journal: what it wrote, the zeros left of the allocated
file, and how much of it has been synced. -/
structure Writer where
  written : Bytes
  padding : Nat
  synced : Nat

inductive PersistMode
  | buffer
  | syncData
  | syncAll
  deriving DecidableEq

def preAllocatedBytes : Nat := 32 * 1024 * 1024

def Writer.createNew : Writer where
  written := []
  padding := preAllocatedBytes
  synced := 0

def Writer.file (writer : Writer) : Bytes := writer.written ++ List.replicate writer.padding 0

def Writer.write (bytes : Bytes) (writer : Writer) : Writer :=
  { writer with written := writer.written ++ bytes, padding := writer.padding - bytes.length }

def Writer.persist (writer : Writer) : PersistMode → Writer
  | .buffer => writer
  | .syncData => { writer with synced := writer.written.length }
  | .syncAll => { writer with synced := writer.written.length }

structure Keyspace (T M : Type) where
  tree : String → T
  queue : String → List M
  seqno : Nat
  sealed : List SealedJournal
  writer : Writer

section Operations

variable {T M : Type} (lib : TreeLib T M) (coding : TreeCoding) (parts : List String)

def TreeLib.write (seqno : Nat) (item : Item) (tree : T) : T :=
  match item.valueType with
  | .value => lib.insert item.key item.value seqno tree
  | .tombstone => lib.remove item.key seqno tree
  | .weakTombstone => lib.removeWeak item.key seqno tree

def applyItem (seqno : Nat) (tree : String → T) (item : Item) : String → T :=
  if item.partition ∈ parts then
    Function.update tree item.partition (lib.write seqno item (tree item.partition))
  else tree

def createNew : Keyspace T M where
  tree := fun _ => lib.create
  queue := fun _ => []
  seqno := 0
  sealed := []
  writer := .createNew

def commit (items : List Item) (durability : Option PersistMode) (ks : Keyspace T M) :
    Keyspace T M :=
  let writer := ks.writer.write (writeBatch coding items ks.seqno)
  { ks with
    seqno := ks.seqno + 1
    writer := durability.elim writer writer.persist
    tree := items.foldl (applyItem lib parts ks.seqno) ks.tree }

/-- Where the memtable holds something it is sealed, and the journal with it. -/
def rotateMemtable (name : String) (ks : Keyspace T M) : Keyspace T M :=
  match lib.rotateMemtable (ks.tree name) with
  | none => ks
  | some (yanked, memtable) =>
      let tree := Function.update ks.tree name yanked
      { ks with
        tree := tree
        queue := Function.update ks.queue name (ks.queue name ++ [memtable])
        sealed := ks.sealed ++
          [⟨(ks.writer.persist .syncAll).file, fun p => lib.highestMemtableSeqno (tree p)⟩]
        writer := .createNew }

def flush (name : String) (tasks : Nat) (ks : Keyspace T M) : Keyspace T M :=
  let memtables := (ks.queue name).take tasks
  { ks with
    tree := Function.update ks.tree name (lib.registerSegments memtables (ks.tree name))
    queue := Function.update ks.queue name ((ks.queue name).drop memtables.length) }

/-- Whether each partition of a sealed journal has persisted what is in it. -/
def flushed (tree : String → T) (journal : SealedJournal) : Bool :=
  parts.all fun p => (journal.watermarks p).all fun lsn =>
    (lib.persistedSeqno (tree p)).any (lsn ≤ ·)

def maintenance (ks : Keyspace T M) : Keyspace T M :=
  { ks with sealed := ks.sealed.dropWhile (flushed lib parts ks.tree) }

def persist (mode : PersistMode) (ks : Keyspace T M) : Keyspace T M :=
  { ks with writer := ks.writer.persist mode }

end Operations

section Recovery

variable {T M : Type} (lib : TreeLib T M) (coding : TreeCoding) (parts : List String)

structure OnDisk (T : Type) where
  tree : String → T
  sealed : List Bytes
  active : Bytes

/-- A crash keeps what has been synced of the active journal. Of the rest it keeps
the bytes up to some place, with zeros behind them. -/
def crash (cut zeros : Nat) (ks : Keyspace T M) : OnDisk T where
  tree := fun p => lib.reopen (ks.tree p)
  sealed := ks.sealed.map (·.file)
  active := ks.writer.written.take cut ++ List.replicate zeros 0

inductive Failure
  | journal (error : RecoveryError)
  | panicked
  | lsnMismatch
  | unfinished
  deriving DecidableEq

def readBack (file : Bytes) : Except Failure (List Batch × Nat) :=
  match readJournal coding file with
  | .journal batches length => .ok (batches, length)
  | .failed _ error => .error (.journal error)
  | .panicked _ => .error .panicked
  | .unfinished => .error .unfinished

def replayItem (seqno : Nat) (state : (String → T) × Watermarks) (item : Item) :
    (String → T) × Watermarks :=
  (applyItem lib parts seqno state.1 item,
    if item.partition ∈ parts then
      Function.update state.2 item.partition
        (some ((state.2 item.partition).elim seqno (max · seqno)))
    else state.2)

def replayBatch (state : (String → T) × Watermarks) (batch : Batch) : (String → T) × Watermarks :=
  batch.items.foldl (replayItem lib parts batch.seqno) state

def nextSeqno (highest : Option Nat) : Nat := highest.elim 0 (· + 1)

/-- A recovered memtable is dropped where the partition has persisted it already,
else sealed and queued for flushing. -/
def sealRecovered (watermarks : Watermarks) (ks : Keyspace T M) (name : String) :
    Except Failure (Keyspace T M) :=
  match watermarks name with
  | none => .ok ks
  | some lsn =>
      if (lib.persistedSeqno (ks.tree name)).any (lsn ≤ ·) then
        .ok { ks with
          tree := Function.update ks.tree name (lib.clearActiveMemtable (ks.tree name)) }
      else
        match lib.rotateMemtable (ks.tree name) with
        | none => .ok ks
        | some (tree, memtable) =>
            if lib.memtableSeqno memtable = some lsn then
              .ok { ks with
                tree := Function.update ks.tree name tree
                seqno := max ks.seqno (nextSeqno (lib.highestSeqno tree))
                queue := Function.update ks.queue name (ks.queue name ++ [memtable]) }
            else .error .lsnMismatch

def recoverSealedMemtables (ks : Keyspace T M) (file : Bytes) : Except Failure (Keyspace T M) := do
  let (batches, length) ← readBack coding file
  let (tree, watermarks) := batches.foldl (replayBatch lib parts) (ks.tree, fun _ => none)
  let ks ← parts.foldlM (sealRecovered lib watermarks) { ks with tree }
  .ok { ks with sealed := ks.sealed ++ [⟨file.take length, watermarks⟩] }

def recoverActive (ks : Keyspace T M) (file : Bytes) : Except Failure (Keyspace T M) := do
  let (batches, length) ← readBack coding file
  let tree := batches.foldl (fun tree batch => batch.items.foldl (applyItem lib parts batch.seqno) tree) ks.tree
  .ok { ks with
    tree
    seqno := parts.foldl (fun seqno p => max seqno (nextSeqno (lib.highestSeqno (tree p)))) ks.seqno
    writer := ⟨file.take length, 0, length⟩ }

def recover (disk : OnDisk T) : Except Failure (Keyspace T M) := do
  let ks ← disk.sealed.foldlM (recoverSealedMemtables lib coding parts)
    { tree := disk.tree, queue := fun _ => [], seqno := 0, sealed := [], writer := ⟨[], 0, 0⟩ }
  recoverActive lib coding parts ks disk.active

end Recovery

section Runs

variable {T M : Type} (lib : TreeLib T M) (coding : TreeCoding) (parts : List String)

inductive Event
  | commit (items : List Item) (durability : Option PersistMode)
  | rotate (partition : String)
  | flush (partition : String) (tasks : Nat)
  | maintenance
  | persist (mode : PersistMode)
  | crash (cut zeros : Nat)

def step (ks : Keyspace T M) : Event → Except Failure (Keyspace T M)
  | .commit items durability => .ok (commit lib coding parts items durability ks)
  | .rotate name => .ok (rotateMemtable lib name ks)
  | .flush name tasks => .ok (flush lib name tasks ks)
  | .maintenance => .ok (maintenance lib parts ks)
  | .persist mode => .ok (persist mode ks)
  | .crash cut zeros => recover lib coding parts (crash lib cut zeros ks)

/-- Batches are of partitions that are open, and of items that the journal has room
for, while there are sequence numbers left. A crash keeps what has been synced. -/
def Event.Admissible (ks : Keyspace T M) : Event → Prop
  | .commit items _ => (⟨ks.seqno, items⟩ : Batch).Fits ∧ ∀ item ∈ items, item.partition ∈ parts
  | .rotate name => name ∈ parts
  | .flush name _ => name ∈ parts
  | .maintenance => True
  | .persist _ => True
  | .crash cut _ => ks.writer.synced ≤ cut

inductive Run : List Event → Keyspace T M → Prop
  | created : Run [] (createNew lib)
  | then {events : List Event} {ks ks' : Keyspace T M} (h : Run events ks) (event : Event)
      (hadmissible : event.Admissible parts ks) (hstep : step lib coding parts ks event = .ok ks') :
      Run (events ++ [event]) ks'

end Runs

end Nightfrost.FjallKeyspace
