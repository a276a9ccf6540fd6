import Nightfrost.ContractStates
import Nightfrost.Offline
import Nightfrost.Journal

namespace Nightfrost.ContractMigration

open ByteOrder Tables Partitions Domain Schema Scripts Journal Offline IndexBlock ContractStates

/-- The tables of a data directory, where those of a partition that does not
exist are empty. Only of the legacy partition it matters whether it exists. -/
structure Directory where
  tables : Store
  hasLegacy : Bool

def Directory.applyBatch (dir : Directory) (batch : StoreBatch) : Directory :=
  { dir with tables := commit dir.tables batch }

abbrev Keyspace := Disk Directory StoreBatch

def tables (ks : Keyspace) : Store := (ks.view Directory.applyBatch).tables

abbrev Task (α : Type) := Script Keyspace Fault α

def commitTask (batch : StoreBatch) : Task Unit := change (·.append batch)

def persist : Task Unit := change (·.sync Directory.applyBatch)

def openLegacy : Task Unit := change (Disk.onDisk fun dir => { dir with hasLegacy := true })

def deleteLegacy : Task Unit :=
  change (Disk.onDisk fun dir =>
    ⟨Function.update dir.tables .legacyContractActions ∅, false⟩)

/-- The schema that opening a store detects: a fresh store is current, a
non-empty store without the version key predates it. -/
def detectSchema (s : Store) : Nat :=
  match metaU64 s schemaVersionKey with
  | some v => v
  | none => if lastIndexedHeight s = none then schemaCurrent else 1

def openStore : Task Nat := do
  let s ← look tables
  if metaU64 s schemaVersionKey = none ∧ lastIndexedHeight s = none then
    commitTask [.put .metadata schemaVersionKey (.u64 schemaCurrent)]
  if detectSchema s ≥ 2 then pure (detectSchema s)
  else do
    openLegacy
    pure (detectSchema s)

def requireCurrentSchema (schema : Nat) : Except String Unit :=
  if schema = schemaCurrent then .ok ()
  else .error ("data directory is on store schema " ++ toString schema ++ " (current is " ++
    toString schemaCurrent ++ "); run `nightfrost --backfill-contract-states` with the indexer " ++
    "stopped to migrate")

structure ContractStatesCounts where
  actions : Nat
  blobs : Nat
  blobBytes : Nat
  cutOver : Bool
  reclaimed : Bool
  deriving DecidableEq

scoped instance lawfulStateHash : LawfulBEq (ByteArr 32) := inferInstance

structure MigrationScan where
  batch : StoreBatch
  pending : Nat
  pendingHashes : List (ByteArr 32)
  counts : ContractStatesCounts

abbrev LegacyAction := Bytes × LegacyContractActionRecord

def actionId (entry : LegacyAction) : Nat := fromBe entry.1

section Migration

variable (sha256 : Bytes → ByteArr 32)

def stateHash (state : Bytes) : Option (ByteArr 32) := if state = [] then none else some (sha256 state)

def migrated (legacy : LegacyContractActionRecord) : ContractActionRecord where
  address := legacy.address
  attributes := legacy.attributes
  stateHash := stateHash sha256 legacy.state
  balances := legacy.balances
  txId := legacy.txId
  blockHeight := legacy.blockHeight

def MigrationScan.addState (st : MigrationScan) (state : Bytes) : Task MigrationScan :=
  if state = [] then pure st
  else do
    let present ← look (fun ks => decide ((sha256 state).val ∈ tables ks .contractStates))
    if present = false ∧ sha256 state ∉ st.pendingHashes then
      pure { st with
        batch := st.batch ++ [.put .contractStates (sha256 state).val state]
        pendingHashes := sha256 state :: st.pendingHashes
        counts := { st.counts with
          blobs := st.counts.blobs + 1
          blobBytes := st.counts.blobBytes + state.length } }
    else pure st

def cursorAt (lastId : Nat) : StoreBatch :=
  [.put .metadata contractStatesBackfillCursorKey (.u64 lastId)]

def MigrationScan.commitFull (st : MigrationScan) (lastId : Nat) : Task MigrationScan :=
  if st.pending ≥ commitEvery then do
    commitTask (st.batch ++ cursorAt lastId)
    pure { st with batch := [], pending := 0, pendingHashes := [] }
  else pure st

def migrateAction (resumeAfter : Option Nat) (st : MigrationScan) (entry : LegacyAction) :
    Task MigrationScan :=
  if entry.1.length ≠ 8 then .fail (.error "8-byte action id")
  else if resumeAfter.any (fun cursor => actionId entry ≤ cursor) then pure st
  else do
    let st ← MigrationScan.addState sha256
      { st with counts := { st.counts with actions := st.counts.actions + 1 } } entry.2.state
    MigrationScan.commitFull { st with
      batch := st.batch ++ [.put .contractActions entry.1 (migrated sha256 entry.2)]
      pending := st.pending + 1 } (actionId entry)

def cutover : StoreBatch :=
  [.remove .metadata contractStatesBackfillCursorKey,
    .put .metadata schemaVersionKey (.u64 schemaCurrent)]

def noCounts : ContractStatesCounts := ⟨0, 0, 0, false, false⟩

def backfillContractStates (schema : Nat) : Task ContractStatesCounts :=
  if schema ≥ schemaCurrent then do
    -- behind the cutover: only the reclamation may remain
    let hasLegacy ← look (·.durable.hasLegacy)
    if hasLegacy then do
      deleteLegacy
      pure { noCounts with reclaimed := true }
    else pure noCounts
  else do
    let resumeAfter ← look (fun ks => metaU64 (tables ks) contractStatesBackfillCursorKey)
    let rows ← look (fun ks => (tables ks .legacyContractActions).toList)
    let st ← rows.foldlM (migrateAction sha256 resumeAfter) ⟨[], 0, [], noCounts⟩
    commitTask (st.batch ++ cutover)
    persist
    deleteLegacy
    pure { st.counts with cutOver := true, reclaimed := true }

def migrate : Task ContractStatesCounts := do
  let schema ← openStore
  backfillContractStates sha256 schema

end Migration

section Spec

variable (sha256 : Bytes → ByteArr 32)

def legacyActions (s : Store) : List LegacyAction := (s .legacyContractActions).toList

structure SchemaOne (dir : Directory) : Prop where
  schema : detectSchema dir.tables = 1
  hasLegacy : dir.hasLegacy = true
  keys : ∀ entry ∈ legacyActions dir.tables, entry.1.length = 8
  actions : dir.tables .contractActions = ∅
  states : dir.tables .contractStates = ∅
  cursor : metaU64 dir.tables contractStatesBackfillCursorKey = none

/-- Both tables of the new schema hold all that the legacy table held. -/
structure Complete (legacy : Table LegacyContractActionRecord) (s : Store) : Prop where
  actions : ∀ k : Bytes, (s .contractActions)[k]? = (legacy[k]?).map (migrated sha256)
  states : ∀ (k v : Bytes), (s .contractStates)[k]? = some v ↔
    v ≠ [] ∧ k = (sha256 v).val ∧
      ∃ (actionKey : Bytes) (record : LegacyContractActionRecord),
        legacy[actionKey]? = some record ∧ record.state = v

def asAction (entry : LegacyAction) : Action :=
  (entry.2.address, migrated sha256 entry.2, entry.2.state)

/-- The new tables hold the first legacy records with the states of `shown`, and
nothing else. -/
structure Copied (front shown : List LegacyAction) (puts : List (Bytes × Bytes)) (s : Store) :
    Prop where
  actions : ∀ (k : Bytes) v, (s .contractActions)[k]? = some v ↔
    ∃ entry ∈ front, entry.1 = k ∧ migrated sha256 entry.2 = v
  states : Addressed sha256 (shown.map (asAction sha256)) (s .contractStates)
  puts : PutOnce sha256 puts (s .contractStates)

/-- How far the migration is, by the rows that are copied and those to come. -/
inductive Phase (legacy : Table LegacyContractActionRecord) (front rest : List LegacyAction)
    (dir : Directory) : Prop
  | copying (schema : detectSchema dir.tables = 1)
      (cursor : metaU64 dir.tables contractStatesBackfillCursorKey = (front.getLast?).map actionId)
      (hasLegacy : dir.hasLegacy = true) (rows : dir.tables .legacyContractActions = legacy)
  | cutOver (version : metaU64 dir.tables schemaVersionKey = some schemaCurrent) (done : rest = [])

/-- What is on disk is a stage of the migration, made by the batches that survived. -/
def Sound (legacy : Table LegacyContractActionRecord) (dir : Directory) (batches : List StoreBatch) :
    Prop :=
  ∃ front rest, legacy.toList = front ++ rest ∧
    Copied sha256 front front (statePuts batches.flatten) dir.tables ∧ Phase legacy front rest dir

end Spec

section Scan

variable {sha256 : Bytes → ByteArr 32} {legacy : Table LegacyContractActionRecord} {s s' : Store}
  {front shown rest : List LegacyAction} {entry : LegacyAction} {puts : List (Bytes × Bytes)}

theorem Copied.addState_new (h : Copied sha256 front shown puts s) (hstate : entry.2.state ≠ [])
    (hnew : (sha256 entry.2.state).val ∉ s .contractStates) :
    Copied sha256 front (shown ++ [entry]) (puts ++ [((sha256 entry.2.state).val, entry.2.state)])
      (commit s [.put .contractStates (sha256 entry.2.state).val entry.2.state]) := by
  constructor
  · intro k v
    rw [commit_singleton, apply_put_other _ (by decide)]
    exact h.actions k v
  · rw [commit_singleton, apply_put_same, List.map_append, List.map_singleton]
    exact h.states.push_new hstate hnew
  · rw [commit_singleton, apply_put_same]
    exact h.puts.push hnew

theorem Copied.addState_known (h : Copied sha256 front shown puts s)
    (hknown : entry.2.state = [] ∨ ∃ old ∈ shown, old.2.state = entry.2.state) :
    Copied sha256 front (shown ++ [entry]) puts s := by
  refine ⟨h.actions, ?_, h.puts⟩
  rw [List.map_append, List.map_singleton]
  refine h.states.push_known (hknown.imp_right ?_)
  rintro ⟨old, hold, hstate⟩
  exact ⟨asAction sha256 old, List.mem_map_of_mem hold, hstate⟩

theorem Copied.known (h : Copied sha256 front shown puts s)
    (hsafe : NoCollision sha256 (legacy.toList.map (·.2.state)))
    (hshown : ∀ old ∈ shown ++ [entry], old ∈ legacy.toList)
    (hmem : (sha256 entry.2.state).val ∈ s .contractStates) :
    ∃ old ∈ shown, old.2.state = entry.2.state := by
  have hall : ∀ old ∈ shown.map (asAction sha256) ++ [asAction sha256 entry],
      old.2.2 ∈ legacy.toList.map (·.2.state) := by
    intro action haction
    rw [← List.map_singleton, ← List.map_append] at haction
    obtain ⟨old, hold, rfl⟩ := List.mem_map.mp haction
    exact List.mem_map_of_mem (f := fun entry : LegacyAction => entry.2.state) (hshown old hold)
  obtain ⟨action, haction, hstate⟩ := h.states.known hsafe hall hmem
  obtain ⟨old, hold, rfl⟩ := List.mem_map.mp haction
  exact ⟨old, hold, hstate⟩

theorem Copied.addAction (h : Copied sha256 front shown puts s)
    (hnew : ∀ old ∈ front, old.1 ≠ entry.1) :
    Copied sha256 (front ++ [entry]) shown puts
      (commit s [.put .contractActions entry.1 (migrated sha256 entry.2)]) := by
  constructor
  · intro k v
    rw [commit_singleton, apply_put_same, get_insert]
    by_cases hk : entry.1 = k
    · rw [if_pos hk]
      constructor
      · intro hv
        exact ⟨entry, List.mem_append_right _ List.mem_cons_self, hk, Option.some.inj hv⟩
      · rintro ⟨old, hold, hkey, rfl⟩
        rcases List.mem_append.mp hold with hfront | hlast
        · exact absurd (hkey.trans hk.symm) (hnew old hfront)
        · rw [List.mem_singleton.mp hlast]
    · rw [if_neg hk, h.actions k v]
      constructor
      · rintro ⟨old, hold, hrow⟩
        exact ⟨old, List.mem_append_left _ hold, hrow⟩
      · rintro ⟨old, hold, hkey, hrow⟩
        rcases List.mem_append.mp hold with hfront | hlast
        · exact ⟨old, hfront, hkey, hrow⟩
        · rw [List.mem_singleton.mp hlast] at hkey
          exact absurd hkey hk
  · rw [commit_singleton, apply_put_other _ (by decide)]
    exact h.states
  · rw [commit_singleton, apply_put_other _ (by decide)]
    exact h.puts

theorem Copied.other (h : Copied sha256 front shown puts s)
    (hactions : s' .contractActions = s .contractActions)
    (hstates : s' .contractStates = s .contractStates) : Copied sha256 front shown puts s' := by
  refine ⟨?_, ?_, ?_⟩
  · rw [hactions]
    exact h.actions
  · rw [hstates]
    exact h.states
  · rw [hstates]
    exact h.puts

theorem Copied.complete (h : Copied sha256 front front puts s) (hall : legacy.toList = front) :
    Complete sha256 legacy s := by
  subst hall
  constructor
  · intro k
    apply Option.ext
    intro v
    rw [h.actions k v, Option.map_eq_some_iff]
    constructor
    · rintro ⟨⟨key, record⟩, hmem, rfl, rfl⟩
      exact ⟨record, mem_rows.mp hmem, rfl⟩
    · rintro ⟨record, hget, rfl⟩
      exact ⟨(k, record), mem_rows.mpr hget, rfl, rfl⟩
  · intro k v
    rw [h.states k v]
    refine and_congr_right fun _ => and_congr_right fun _ => ?_
    constructor
    · rintro ⟨action, haction, rfl⟩
      obtain ⟨⟨key, record⟩, hmem, rfl⟩ := List.mem_map.mp haction
      exact ⟨key, record, mem_rows.mp hmem, rfl⟩
    · rintro ⟨key, record, hget, rfl⟩
      exact ⟨asAction sha256 (key, record), List.mem_map_of_mem (mem_rows.mpr hget), rfl⟩

end Scan

section Metadata

variable {s s' : Store} {k key : Bytes}

theorem detectSchema_eq (hversion : metaU64 s' schemaVersionKey = metaU64 s schemaVersionKey)
    (hheight : metaU64 s' lastHeightKey = metaU64 s lastHeightKey) : detectSchema s' = detectSchema s := by
  unfold detectSchema lastIndexedHeight
  rw [hversion, hheight]

theorem detectSchema_of_version {v : Nat} (h : metaU64 s schemaVersionKey = some v) :
    detectSchema s = v := by
  rw [detectSchema]
  rw [h]

end Metadata

section Loop

variable {sha256 : Bytes → ByteArr 32} {legacy : Table LegacyContractActionRecord}
  {front shown rest : List LegacyAction} {entry : LegacyAction} {st : MigrationScan} {ks : Keyspace}

theorem view_hasLegacy (ks : Keyspace) :
    (ks.view Directory.applyBatch).hasLegacy = ks.durable.hasLegacy := by
  have general : ∀ (batches : List StoreBatch) (dir : Directory),
      (batches.foldl Directory.applyBatch dir).hasLegacy = dir.hasLegacy := by
    intro batches
    induction batches with
    | nil => exact fun _ => rfl
    | cons batch batches ih => exact fun dir => ih (dir.applyBatch batch)
  exact general ks.journal ks.durable

theorem tables_append (ks : Keyspace) (batch : StoreBatch) :
    tables (ks.append batch) = commit (tables ks) batch := by
  rw [tables]
  rw [view_append]
  rfl

/-- What the batch of the scan holds, and what it adds to the store. -/
structure Working (sha256 : Bytes → ByteArr 32) (legacy : Table LegacyContractActionRecord)
    (front shown : List LegacyAction) (st : MigrationScan) (ks : Keyspace) : Prop where
  copied : Copied sha256 front shown (statePuts ((ks.survived ++ ks.journal).flatten ++ st.batch))
    (commit (tables ks) st.batch)
  hashes : ∀ hash : ByteArr 32, hash ∈ st.pendingHashes ↔ hash.val ∈ (statePuts st.batch).map Prod.fst
  parts : ∀ o ∈ st.batch, o.part = .contractActions ∨ o.part = .contractStates
  schema : detectSchema (tables ks) = 1
  hasLegacy : ks.durable.hasLegacy = true
  rows : tables ks .legacyContractActions = legacy

theorem Working.quiet (w : Working sha256 legacy front shown st ks) {p : Part}
    (hactions : p ≠ .contractActions) (hstates : p ≠ .contractStates) :
    commit (tables ks) st.batch p = tables ks p := by
  refine commit_other fun o ho he => ?_
  rcases w.parts o ho with hpart | hpart
  · exact hactions (he.trans hpart)
  · exact hstates (he.trans hpart)

theorem Working.present (w : Working sha256 legacy front shown st ks)
    (hsound : Safe Directory.applyBatch (Sound sha256 legacy) ks) (hash : ByteArr 32) :
    hash.val ∈ commit (tables ks) st.batch .contractStates ↔
      hash.val ∈ tables ks .contractStates ∨ hash ∈ st.pendingHashes := by
  obtain ⟨front', rest', -, hcopied, -⟩ := hsound.here
  have hstored := hcopied.puts.stored hash.val
  rw [w.copied.puts.stored, statePuts_append, List.map_append, List.mem_append, w.hashes, ← hstored]
  rfl

/-- What every step of the migration keeps, wherever a crash cuts it. -/
abbrev KeepsSound {α : Type} (sha256 : Bytes → ByteArr 32) (legacy : Table LegacyContractActionRecord)
    (Q : α → Keyspace → Prop) (x : Task α) (ks : Keyspace) : Prop :=
  Keeps (Safe Directory.applyBatch (Sound sha256 legacy)) (fun _ => False) Q x ks

theorem addState_keeps (hsound : Safe Directory.applyBatch (Sound sha256 legacy) ks)
    (w : Working sha256 legacy front shown st ks)
    (hsafe : NoCollision sha256 (legacy.toList.map (·.2.state)))
    (hshown : ∀ old ∈ shown ++ [entry], old ∈ legacy.toList) :
    KeepsSound sha256 legacy
      (fun st' ks' => ks' = ks ∧ Working sha256 legacy front (shown ++ [entry]) st' ks)
      (MigrationScan.addState sha256 st entry.2.state) ks := by
  rw [MigrationScan.addState]
  split
  · rename_i hstate
    exact keeps_pure hsound ⟨rfl, w.copied.addState_known (.inl hstate), w.hashes, w.parts, w.schema,
      w.hasLegacy, w.rows⟩
  · rename_i hstate
    apply keeps_look hsound
    split
    · rename_i hnew
      have hmissing : (sha256 entry.2.state).val ∉ commit (tables ks) st.batch .contractStates := by
        rw [w.present hsound]
        rintro (hmem | hmem)
        · exact of_decide_eq_false hnew.1 hmem
        · exact hnew.2 hmem
      refine keeps_pure hsound ⟨rfl, ?_, ?_, ?_, w.schema, w.hasLegacy, w.rows⟩
      · have hput := w.copied.addState_new hstate hmissing
        rw [← commit_append] at hput
        rw [← List.append_assoc, statePuts_append]
        exact hput
      · intro hash
        rw [statePuts_append, List.map_append, List.mem_append, List.mem_cons, w.hashes hash, or_comm]
        apply or_congr_right
        rw [Subtype.ext_iff]
        exact List.mem_singleton.symm
      · intro o ho
        rcases List.mem_append.mp ho with ho | ho
        · exact w.parts o ho
        · rw [List.mem_singleton.mp ho]
          exact .inr rfl
    · rename_i hold
      have hmem : (sha256 entry.2.state).val ∈ commit (tables ks) st.batch .contractStates := by
        rw [w.present hsound]
        by_contra hnone
        exact hold ⟨decide_eq_false fun hmem => hnone (.inl hmem), fun hmem => hnone (.inr hmem)⟩
      exact keeps_pure hsound ⟨rfl, w.copied.addState_known (.inr (w.copied.known hsafe hshown hmem)),
        w.hashes, w.parts, w.schema, w.hasLegacy, w.rows⟩

theorem Working.start (hcopied : Copied sha256 front front (statePuts (ks.survived ++ ks.journal).flatten)
      (tables ks)) (hschema : detectSchema (tables ks) = 1) (hlegacy : ks.durable.hasLegacy = true)
    (hrows : tables ks .legacyContractActions = legacy) (counts : ContractStatesCounts) :
    Working sha256 legacy front front ⟨[], 0, [], counts⟩ ks := by
  refine ⟨?_, fun hash => ?_, fun o ho => absurd ho List.not_mem_nil, hschema, hlegacy, hrows⟩
  · rw [List.append_nil]
    exact hcopied
  · exact ⟨fun hmem => absurd hmem List.not_mem_nil, fun hmem => absurd hmem List.not_mem_nil⟩

theorem Working.addAction (w : Working sha256 legacy front shown st ks)
    (hnew : ∀ old ∈ front, old.1 ≠ entry.1) (pending : Nat) :
    Working sha256 legacy (front ++ [entry]) shown { st with
      batch := st.batch ++ [.put .contractActions entry.1 (migrated sha256 entry.2)]
      pending := pending } ks := by
  have hputs : statePuts (st.batch ++ [.put .contractActions entry.1 (migrated sha256 entry.2)]) =
      statePuts st.batch := by
    rw [statePuts_append]
    exact List.append_nil _
  refine ⟨?_, ?_, ?_, w.schema, w.hasLegacy, w.rows⟩
  · have hput := w.copied.addAction hnew
    rw [← commit_append] at hput
    rw [statePuts_append, hputs, ← statePuts_append]
    exact hput
  · intro hash
    rw [hputs]
    exact w.hashes hash
  · intro o ho
    rcases List.mem_append.mp ho with ho | ho
    · exact w.parts o ho
    · rw [List.mem_singleton.mp ho]
      exact .inl rfl

section Tail

variable {tail : StoreBatch}

theorem Working.copied_tail (w : Working sha256 legacy front front st ks)
    (htail : ∀ o ∈ tail, o.part = .metadata) :
    Copied sha256 front front (statePuts (ks.survived ++ ks.journal ++ [st.batch ++ tail]).flatten)
      (tables (ks.append (st.batch ++ tail))) := by
  have hputs : statePuts tail = [] := statePuts_other fun o ho he => by
    rw [htail o ho] at he
    cases he
  have hquiet : ∀ p : Part, p ≠ .metadata →
      commit (commit (tables ks) st.batch) tail p = commit (tables ks) st.batch p := by
    intro p hp
    exact commit_other fun o ho he => hp (he.trans (htail o ho))
  rw [tables_append, commit_append, List.flatten_append, List.flatten_singleton, ← List.append_assoc,
    statePuts_append, hputs, List.append_nil]
  exact w.copied.other (hquiet _ (by decide)) (hquiet _ (by decide))

theorem Working.metadata_tail (w : Working sha256 legacy front front st ks) (key : Bytes) :
    metaU64 (tables (ks.append (st.batch ++ tail))) key = metaU64 (commit (tables ks) tail) key := by
  apply metaU64_other
  rw [tables_append, commit_append]
  exact commit_part (w.quiet (by decide) (by decide))

theorem Working.rows_tail (w : Working sha256 legacy front front st ks)
    (htail : ∀ o ∈ tail, o.part = .metadata) :
    tables (ks.append (st.batch ++ tail)) .legacyContractActions = legacy := by
  rw [tables_append, commit_append, commit_other, w.quiet (by decide) (by decide), w.rows]
  intro o ho he
  rw [htail o ho] at he
  cases he

/-- A batch that reaches the next stage of the migration may be committed. -/
theorem Working.safe_tail (w : Working sha256 legacy front front st ks)
    (hsound : Safe Directory.applyBatch (Sound sha256 legacy) ks)
    (htail : ∀ o ∈ tail, o.part = .metadata) (hsplit : legacy.toList = front ++ rest)
    (hphase : Phase legacy front rest ((ks.append (st.batch ++ tail)).view Directory.applyBatch)) :
    Safe Directory.applyBatch (Sound sha256 legacy) (ks.append (st.batch ++ tail)) := by
  have hview : (ks.append (st.batch ++ tail)).view Directory.applyBatch =
      (ks.view Directory.applyBatch).applyBatch (st.batch ++ tail) := view_append
  apply hsound.append
  rw [← hview]
  exact ⟨front, rest, hsplit, w.copied_tail htail, hphase⟩

end Tail

theorem commitFull_keeps (hsound : Safe Directory.applyBatch (Sound sha256 legacy) ks)
    (w : Working sha256 legacy (front ++ [entry]) (front ++ [entry]) st ks)
    (hsplit : legacy.toList = front ++ [entry] ++ rest) :
    KeepsSound sha256 legacy
      (fun st' ks' => Working sha256 legacy (front ++ [entry]) (front ++ [entry]) st' ks')
      (st.commitFull (actionId entry)) ks := by
  rw [MigrationScan.commitFull]
  split
  · have htail : ∀ o ∈ cursorAt (actionId entry), o.part = .metadata := by
      intro o ho
      rw [List.mem_singleton.mp ho]
      rfl
    have hcursor : metaU64 (tables (ks.append (st.batch ++ cursorAt (actionId entry))))
        contractStatesBackfillCursorKey = ((front ++ [entry]).getLast?).map actionId := by
      rw [w.metadata_tail, cursorAt, commit_singleton, metaU64_put, if_pos rfl, List.getLast?_concat]
      rfl
    have hschema : detectSchema (tables (ks.append (st.batch ++ cursorAt (actionId entry)))) = 1 := by
      rw [← w.schema]
      apply detectSchema_eq
      · rw [w.metadata_tail, cursorAt, commit_singleton, metaU64_put, if_neg (by decide)]
      · rw [w.metadata_tail, cursorAt, commit_singleton, metaU64_put, if_neg (by decide)]
    have hnext := w.safe_tail hsound htail hsplit
      (.copying hschema hcursor ((view_hasLegacy _).trans w.hasLegacy) (w.rows_tail htail))
    have hcopied := w.copied_tail htail
    rw [List.append_assoc] at hcopied
    exact keeps_change hsound (keeps_pure hnext
      (Working.start hcopied hschema w.hasLegacy (w.rows_tail htail) _))
  · exact keeps_pure hsound w

theorem migrateAction_keeps {resumeAfter : Option Nat}
    (hsound : Safe Directory.applyBatch (Sound sha256 legacy) ks)
    (w : Working sha256 legacy front front st ks)
    (hsafe : NoCollision sha256 (legacy.toList.map (·.2.state)))
    (hsplit : legacy.toList = front ++ [entry] ++ rest) (hkey : entry.1.length = 8)
    (hahead : ∀ cursor ∈ resumeAfter, cursor < actionId entry) :
    KeepsSound sha256 legacy
      (fun st' ks' => Working sha256 legacy (front ++ [entry]) (front ++ [entry]) st' ks')
      (migrateAction sha256 resumeAfter st entry) ks := by
  have hnew : ∀ old ∈ front, old.1 ≠ entry.1 := by
    intro old hold he
    have hsorted := rows_sorted legacy
    rw [hsplit, List.append_assoc] at hsorted
    have hlt := (List.pairwise_append.mp hsorted).2.2 old hold entry List.mem_cons_self
    rw [he, Std.ReflOrd.compare_self] at hlt
    cases hlt
  have hnoskip : ¬ (resumeAfter.any fun cursor => actionId entry ≤ cursor) = true := by
    cases resumeAfter with
    | none => exact Bool.false_ne_true
    | some cursor =>
        have hlt := hahead cursor rfl
        simpa using hlt
  rw [migrateAction, if_neg (not_not.mpr hkey), if_neg hnoskip]
  have hstart : Working sha256 legacy front front
      { st with counts := { st.counts with actions := st.counts.actions + 1 } } ks :=
    ⟨w.copied, w.hashes, w.parts, w.schema, w.hasLegacy, w.rows⟩
  refine keeps_bind (addState_keeps hsound hstart hsafe fun old hold => ?_) ?_
  · rw [hsplit]
    exact List.mem_append_left _ hold
  · rintro st' ks' hsound' ⟨rfl, w'⟩
    exact commitFull_keeps hsound' (w'.addAction hnew _) hsplit

section Resume

variable {resumeAfter : Option Nat}

theorem actionId_lt {old : LegacyAction} (hold : old.1.length = 8) (hentry : entry.1.length = 8)
    (hlt : compare old.1 entry.1 = .lt) : actionId old < actionId entry := by
  rw [← be_fromBe hold, ← be_fromBe hentry, compare_be (fromBe_lt hold.le) (fromBe_lt hentry.le)] at hlt
  exact Nat.compare_eq_lt.mp hlt

theorem resume_between (hkeys : ∀ entry ∈ legacy.toList, entry.1.length = 8)
    (hsplit : legacy.toList = front ++ rest) (hcursor : resumeAfter = (front.getLast?).map actionId) :
    (∀ entry ∈ front, ∃ cursor ∈ resumeAfter, actionId entry ≤ cursor) ∧
      ∀ entry ∈ rest, ∀ cursor ∈ resumeAfter, cursor < actionId entry := by
  have hsorted := rows_sorted legacy
  rw [hsplit] at hsorted
  obtain ⟨hfront, -, hcross⟩ := List.pairwise_append.mp hsorted
  have hmem : ∀ entry ∈ front ++ rest, entry.1.length = 8 := by
    rw [← hsplit]
    exact hkeys
  cases front using List.reverseRecOn with
  | nil =>
      subst hcursor
      exact ⟨fun entry hentry => absurd hentry List.not_mem_nil, fun _ _ cursor hcursor => by cases hcursor⟩
  | append_singleton front last =>
      rw [List.getLast?_concat] at hcursor
      subst hcursor
      have hlast : last ∈ front ++ [last] := List.mem_append_right _ List.mem_cons_self
      constructor
      · intro entry hentry
        refine ⟨actionId last, rfl, ?_⟩
        rcases List.mem_append.mp hentry with hold | hnew
        · have hlt := (List.pairwise_append.mp hfront).2.2 entry hold last List.mem_cons_self
          exact (actionId_lt (hmem _ (List.mem_append_left _ hentry))
            (hmem _ (List.mem_append_left _ hlast)) hlt).le
        · rw [List.mem_singleton.mp hnew]
      · intro entry hentry cursor hcursor
        obtain rfl := Option.some.inj hcursor
        exact actionId_lt (hmem _ (List.mem_append_left _ hlast)) (hmem _ (List.mem_append_right _ hentry))
          (hcross last hlast entry hentry)

theorem migrateAction_skip (hkey : entry.1.length = 8)
    (hbehind : ∃ cursor ∈ resumeAfter, actionId entry ≤ cursor) :
    migrateAction sha256 resumeAfter st entry = pure st := by
  obtain ⟨cursor, hcursor, hle⟩ := hbehind
  obtain rfl : resumeAfter = some cursor := hcursor
  have hskip : ((some cursor).any fun cursor => actionId entry ≤ cursor) = true := decide_eq_true hle
  rw [migrateAction, if_neg (not_not.mpr hkey), if_pos hskip]

theorem scan_keeps (hsound : Safe Directory.applyBatch (Sound sha256 legacy) ks)
    (w : Working sha256 legacy front front st ks)
    (hsafe : NoCollision sha256 (legacy.toList.map (·.2.state)))
    (hkeys : ∀ entry ∈ legacy.toList, entry.1.length = 8) (hsplit : legacy.toList = front ++ rest)
    (hcursor : resumeAfter = (front.getLast?).map actionId) :
    KeepsSound sha256 legacy
      (fun st' ks' => Working sha256 legacy legacy.toList legacy.toList st' ks')
      (legacy.toList.foldlM (migrateAction sha256 resumeAfter) st) ks := by
  obtain ⟨hbehind, hahead⟩ := resume_between hkeys hsplit hcursor
  have hmem : ∀ entry ∈ front ++ rest, entry.1.length = 8 := by
    rw [← hsplit]
    exact hkeys
  rw [hsplit, foldlM_skip fun entry hentry =>
    migrateAction_skip (hmem entry (List.mem_append_left _ hentry)) (hbehind entry hentry)]
  refine keeps_foldlM (J := fun done st' ks' => Working sha256 legacy (front ++ done) (front ++ done) st' ks')
    hsound ?_ ?_
  · rw [List.append_nil]
    exact w
  · intro done entry rest' st' ks' hrest hsound' w'
    have hentry : entry ∈ rest := by
      rw [hrest]
      exact List.mem_append_right _ List.mem_cons_self
    have hsplit' : legacy.toList = front ++ done ++ [entry] ++ rest' := by
      rw [hsplit, hrest]
      simp
    rw [← List.append_assoc]
    exact migrateAction_keeps hsound' w' hsafe hsplit' (hmem entry (List.mem_append_right _ hentry))
      (hahead entry hentry)

end Resume

end Loop

section Restart

variable {sha256 : Bytes → ByteArr 32} {legacy : Table LegacyContractActionRecord} {ks : Keyspace}
  {dir : Directory} {batches : List StoreBatch}

theorem Sound.onDisk (f : Directory → Directory) (h : Sound sha256 legacy dir batches)
    (hversion : metaU64 dir.tables schemaVersionKey = some schemaCurrent)
    (htables : ∀ p : Part, p ≠ .legacyContractActions → (f dir).tables p = dir.tables p) :
    Sound sha256 legacy (f dir) batches := by
  obtain ⟨front, rest, hsplit, hcopied, hphase⟩ := h
  refine ⟨front, rest, hsplit, hcopied.other (htables _ (by decide)) (htables _ (by decide)), ?_⟩
  cases hphase with
  | copying schema =>
      rw [detectSchema_of_version hversion] at schema
      cases schema
  | cutOver version done =>
      refine .cutOver ?_ done
      rw [metaU64_other (htables _ (by decide)), hversion]

theorem deleteLegacy_tables (p : Part) (hp : p ≠ .legacyContractActions) :
    (Function.update dir.tables .legacyContractActions ∅ : Store) p = dir.tables p :=
  Function.update_of_ne hp _ _

def Ended (ks : Keyspace) : Prop :=
  ks.journal = [] ∧ metaU64 ks.durable.tables schemaVersionKey = some schemaCurrent ∧
    ks.durable.hasLegacy = false

theorem deleteLegacy_keeps {α : Type} (a : α) (hempty : ks.journal = [])
    (hsound : Safe Directory.applyBatch (Sound sha256 legacy) ks)
    (hversion : metaU64 ks.durable.tables schemaVersionKey = some schemaCurrent) :
    KeepsSound sha256 legacy (fun _ ks' => Ended ks') (deleteLegacy >>= fun _ => pure a) ks := by
  have hold := (safe_of_empty hempty).mp hsound
  have hnew := hold.onDisk (fun dir => ⟨Function.update dir.tables .legacyContractActions ∅, false⟩)
    hversion deleteLegacy_tables
  refine keeps_change hsound (keeps_pure ((safe_onDisk hempty).mpr hnew) ⟨hempty, ?_, rfl⟩)
  rw [← hversion]
  exact metaU64_other (deleteLegacy_tables _ (by decide)) _

theorem cutover_keeps {st : MigrationScan} (counts : ContractStatesCounts)
    (hsound : Safe Directory.applyBatch (Sound sha256 legacy) ks)
    (w : Working sha256 legacy legacy.toList legacy.toList st ks) :
    KeepsSound sha256 legacy (fun _ ks' => Ended ks') (do
      commitTask (st.batch ++ cutover)
      persist
      deleteLegacy
      pure counts) ks := by
  have htail : ∀ o ∈ cutover, o.part = .metadata := by
    intro o ho
    rcases List.mem_cons.mp ho with rfl | ho
    · rfl
    · rw [List.mem_singleton.mp ho]
      rfl
  have hversion : metaU64 (tables (ks.append (st.batch ++ cutover))) schemaVersionKey =
      some schemaCurrent := by
    rw [w.metadata_tail, cutover, ← List.singleton_append, commit_append, commit_singleton, metaU64_put, if_pos rfl]
  have hnext := w.safe_tail hsound htail (List.append_nil _).symm (.cutOver hversion rfl)
  refine keeps_change hsound (keeps_change hnext ?_)
  apply deleteLegacy_keeps counts sync_journal hnext.sync
  rw [sync_durable]
  exact hversion

theorem tables_of_empty (hempty : ks.journal = []) : tables ks = ks.durable.tables := by
  rw [tables]
  rw [view_of_empty hempty]

theorem backfill_keeps (hempty : ks.journal = [])
    (hall : Safe Directory.applyBatch (Sound sha256 legacy) ks)
    (hsafe : NoCollision sha256 (legacy.toList.map (·.2.state)))
    (hkeys : ∀ entry ∈ legacy.toList, entry.1.length = 8) :
    KeepsSound sha256 legacy (fun _ ks' => Ended ks')
      (backfillContractStates sha256 (detectSchema ks.durable.tables)) ks := by
  obtain ⟨front, rest, hsplit, hcopied, hphase⟩ := (safe_of_empty hempty).mp hall
  rw [backfillContractStates]
  cases hphase with
  | cutOver version =>
      rw [detectSchema_of_version version, if_pos le_rfl]
      apply keeps_look hall
      by_cases hlegacy : ks.durable.hasLegacy = true
      · rw [if_pos hlegacy]
        exact deleteLegacy_keeps _ hempty hall version
      · rw [if_neg hlegacy]
        exact keeps_pure hall ⟨hempty, version, Bool.eq_false_iff.mpr hlegacy⟩
  | copying one cursor hasLegacy rows =>
      rw [one, if_neg (by decide)]
      refine keeps_look hall (keeps_look hall ?_)
      rw [← tables_of_empty hempty] at one cursor rows hcopied
      have hworking : Working sha256 legacy front front ⟨[], 0, [], noCounts⟩ ks := by
        refine Working.start ?_ one hasLegacy rows noCounts
        rw [hempty, List.append_nil]
        exact hcopied
      rw [rows]
      apply keeps_bind (scan_keeps hall hworking hsafe hkeys hsplit cursor)
      intro st ks' hsound' w
      exact cutover_keeps _ hsound' w

theorem openStore_keeps (hempty : ks.journal = [])
    (hall : Safe Directory.applyBatch (Sound sha256 legacy) ks) :
    KeepsSound sha256 legacy
      (fun schema ks' => ks'.journal = [] ∧ schema = detectSchema ks'.durable.tables) openStore ks := by
  have hsound := (safe_of_empty hempty).mp hall
  obtain ⟨front, rest, hsplit, hcopied, hphase⟩ := hsound
  rw [openStore]
  apply keeps_look hall
  rw [tables_of_empty hempty]
  cases hphase with
  | cutOver version =>
      have hfresh : ¬ (metaU64 ks.durable.tables schemaVersionKey = none ∧
          lastIndexedHeight ks.durable.tables = none) := by
        rintro ⟨hnone, -⟩
        rw [version] at hnone
        cases hnone
      rw [if_neg hfresh, detectSchema_of_version version, if_pos (by decide : schemaCurrent ≥ 2)]
      exact keeps_pure hall ⟨hempty, (detectSchema_of_version version).symm⟩
  | copying one cursor hasLegacy rows =>
      have hfresh : ¬ (metaU64 ks.durable.tables schemaVersionKey = none ∧
          lastIndexedHeight ks.durable.tables = none) := by
        rintro ⟨hnone, hheight⟩
        rw [detectSchema, hnone] at one
        dsimp only at one
        rw [if_pos hheight] at one
        cases one
      rw [if_neg hfresh, one, if_neg (by decide)]
      have hopened : Sound sha256 legacy { ks.durable with hasLegacy := true } ks.survived :=
        ⟨front, rest, hsplit, hcopied, .copying one cursor rfl rows⟩
      have hnext : Safe Directory.applyBatch (Sound sha256 legacy)
          (ks.onDisk fun dir => { dir with hasLegacy := true }) := (safe_onDisk hempty).mpr hopened
      exact keeps_change hall (keeps_pure hnext ⟨hempty, one.symm⟩)

theorem migrate_keeps (hempty : ks.journal = []) (hsound : Sound sha256 legacy ks.durable ks.survived)
    (hsafe : NoCollision sha256 (legacy.toList.map (·.2.state)))
    (hkeys : ∀ entry ∈ legacy.toList, entry.1.length = 8) :
    KeepsSound sha256 legacy (fun _ ks' => Ended ks') (migrate sha256) ks := by
  apply keeps_bind (openStore_keeps hempty ((safe_of_empty hempty).mpr hsound))
  rintro schema ks' hall ⟨hjournal, rfl⟩
  exact backfill_keeps hjournal hall hsafe hkeys

theorem requireCurrentSchema_ok {schema : Nat} :
    requireCurrentSchema schema = .ok () ↔ schema = schemaCurrent := by
  rw [requireCurrentSchema]
  split <;> simp [*]

theorem SchemaOne.sound (h : SchemaOne dir) :
    Sound sha256 (dir.tables .legacyContractActions) dir [] := by
  refine ⟨[], legacyActions dir.tables, rfl, ⟨?_, ?_, ?_, ?_, ?_⟩, ?_⟩
  · intro k v
    rw [h.actions]
    simp
  · intro k v
    rw [h.states]
    simp
  · exact fun put hput => absurd hput List.not_mem_nil
  · exact List.nodup_nil
  · intro k
    rw [h.states]
    simp [statePuts]
  · exact .copying h.schema h.cursor h.hasLegacy rfl

theorem Sound.complete (h : Sound sha256 legacy dir batches)
    (hschema : detectSchema dir.tables = schemaCurrent) : Complete sha256 legacy dir.tables := by
  obtain ⟨front, rest, hsplit, hcopied, hphase⟩ := h
  cases hphase with
  | copying one =>
      rw [hschema] at one
      cases one
  | cutOver version done =>
      subst done
      rw [List.append_nil] at hsplit
      exact hcopied.complete hsplit

theorem Sound.current_of_missing (h : Sound sha256 legacy dir batches) (hmissing : dir.hasLegacy = false) :
    detectSchema dir.tables = schemaCurrent := by
  obtain ⟨front, rest, hsplit, hcopied, hphase⟩ := h
  cases hphase with
  | copying one cursor hasLegacy =>
      rw [hasLegacy] at hmissing
      cases hmissing
  | cutOver version => exact detectSchema_of_version version

theorem Sound.putOnce (h : Sound sha256 legacy dir batches) :
    ((statePuts batches.flatten).map Prod.fst).Nodup := by
  obtain ⟨front, rest, hsplit, hcopied, hphase⟩ := h
  exact hcopied.puts.nodup

/-- Crashes and restarts in any number leave a store on which the migration
completes. The new schema is on disk only with both new tables complete, so that
what the schema gate lets through is, the legacy partition is gone only behind
the cutover, and no state is put twice. -/
theorem contract_states_migration (sha256 : Bytes → ByteArr 32) {dir : Directory}
    (hdir : SchemaOne dir)
    (hsafe : NoCollision sha256 ((legacyActions dir.tables).map (·.2.state))) {ks : Keyspace}
    (hrestarts : Restarts Directory.applyBatch (migrate sha256) dir ks) :
    (detectSchema ks.durable.tables = schemaCurrent →
      Complete sha256 (dir.tables .legacyContractActions) ks.durable.tables) ∧
    (ks.durable.hasLegacy = false → detectSchema ks.durable.tables = schemaCurrent) ∧
    ((statePuts ks.survived.flatten).map Prod.fst).Nodup ∧
    (∀ schema ks', openStore.run ks = (.ok schema, ks') → requireCurrentSchema schema = .ok () →
      Complete sha256 (dir.tables .legacyContractActions) ks'.durable.tables) ∧
    ∃ counts ks', (migrate sha256).run ks = (.ok counts, ks') ∧ ks'.journal = [] ∧
      Complete sha256 (dir.tables .legacyContractActions) ks'.durable.tables ∧
      detectSchema ks'.durable.tables = schemaCurrent ∧ ks'.durable.hasLegacy = false ∧
      ((statePuts ks'.survived.flatten).map Prod.fst).Nodup := by
  have hkeeps : ∀ ks : Keyspace, ks.journal = [] →
      Sound sha256 (dir.tables .legacyContractActions) ks.durable ks.survived →
      KeepsSound sha256 (dir.tables .legacyContractActions) (fun _ ks' => Ended ks')
        (migrate sha256) ks :=
    fun ks hempty hsound => migrate_keeps hempty hsound hsafe hdir.keys
  obtain ⟨hempty, hsound⟩ := hrestarts.sound hdir.sound hkeeps
  refine ⟨hsound.complete, hsound.current_of_missing, hsound.putOnce, ?_, ?_⟩
  · intro schema ks' hopen hgate
    obtain ⟨hall, hjournal, hschema⟩ :=
      (openStore_keeps hempty ((safe_of_empty hempty).mpr hsound)).run_ok hopen
    rw [requireCurrentSchema_ok, hschema] at hgate
    exact ((safe_of_empty hjournal).mp hall).complete hgate
  · have hrun := (hkeeps ks hempty hsound).run
    cases hresult : (migrate sha256).run ks with
    | mk result ks' =>
        rw [hresult] at hrun
        cases result with
        | error e => exact absurd hrun.2 id
        | ok counts =>
            obtain ⟨hall, hjournal, hversion, hmissing⟩ := hrun
            have hschema := detectSchema_of_version hversion
            have hsound' := (safe_of_empty hjournal).mp hall
            exact ⟨counts, ks', rfl, hjournal, hsound'.complete hschema, hschema, hmissing,
              hsound'.putOnce⟩

end Restart

section Sample

def sampleAction (state : Bytes) : LegacyContractActionRecord where
  address := [7]
  attributes := .deploy
  state := state
  balances := []
  txId := 0
  blockHeight := 0

def sampleDirectory : Directory where
  tables := commit (fun _ => ∅) [.put .metadata lastHeightKey (.u64 0),
    .put .legacyContractActions (be 8 0) (sampleAction [1]),
    .put .legacyContractActions (be 8 1) (sampleAction [])]
  hasLegacy := true

theorem sample_actions : legacyActions sampleDirectory.tables =
    [(be 8 0, sampleAction [1]), (be 8 1, sampleAction [])] := by
  decide +kernel

theorem sample_schemaOne : SchemaOne sampleDirectory := by
  refine ⟨by decide, rfl, ?_, rfl, rfl, by decide⟩
  rw [sample_actions]
  intro entry hentry
  simp only [List.mem_cons, List.not_mem_nil, or_false] at hentry
  rcases hentry with rfl | rfl <;> rfl

theorem contract_states_migration_sample : ∃ counts ks',
    (migrate sampleSha256).run ((started sampleDirectory).crash Directory.applyBatch 0) =
      (.ok counts, ks') ∧ ks'.durable.hasLegacy = false := by
  have hsafe : NoCollision sampleSha256 ((legacyActions sampleDirectory.tables).map (·.2.state)) := by
    rw [sample_actions]
    rw [NoCollision]
    decide
  obtain ⟨-, -, -, -, counts, ks', hrun, -, -, -, hmissing, -⟩ :=
    contract_states_migration sampleSha256 sample_schemaOne hsafe (.again .start .cut 0)
  exact ⟨counts, ks', hrun, hmissing⟩

end Sample

end Nightfrost.ContractMigration
