import Nightfrost.ContractMigration

namespace Nightfrost.StateMeasure

open ByteOrder Tables Partitions Domain Schema Scripts Journal Offline IndexBlock ContractStates ContractMigration

structure Report where
  records : Nat
  failedActions : Nat
  logicalBytes : Nat
  uniqueHashes : Nat
  uniqueBytes : Nat
  histogram : List (Nat × Nat)
  topAddresses : List (String × Nat × Nat)
  deriving DecidableEq

def buckets : List Nat := [1024, 10 * 1024, 100 * 1024, 1024 * 1024, 10 * 1024 * 1024]

def bucketOf (len : Nat) : Nat := (buckets.findIdx? (fun b => decide (len < b))).getD 5

def labels : List Nat := buckets ++ [2 ^ 64 - 1]

/-- What the scan has counted, where a set of hashes is the list of them. -/
structure Tally where
  records : Nat
  failedActions : Nat
  logicalBytes : Nat
  uniqueBytes : Nat
  seen : List (ByteArr 32)
  histogram : List Nat
  perAddress : Table (Nat × Nat)

def Tally.start : Tally := ⟨0, 0, 0, 0, [], List.replicate 6 0, ∅⟩

section Measure

variable (sha256 : Bytes → ByteArr 32)

def Tally.addRecord (st : Tally) (entry : LegacyAction) : Tally :=
  let len := entry.2.state.length
  if len = 0 then { st with records := st.records + 1, failedActions := st.failedActions + 1 }
  else
    let fresh := sha256 entry.2.state ∉ st.seen
    let total := (st.perAddress[entry.2.address]?).getD (0, 0)
    { records := st.records + 1
      failedActions := st.failedActions
      logicalBytes := st.logicalBytes + len
      uniqueBytes := if fresh then st.uniqueBytes + len else st.uniqueBytes
      seen := if fresh then sha256 entry.2.state :: st.seen else st.seen
      histogram := st.histogram.modify (bucketOf len) (· + 1)
      perAddress := st.perAddress.insert entry.2.address (total.1 + 1, total.2 + len) }

def tally (rows : List LegacyAction) : Tally := rows.foldl (Tally.addRecord sha256) Tally.start

def byBytes (a b : Bytes × Nat × Nat) : Bool := decide (b.2.2 ≤ a.2.2)

/-- The map of the addresses is gone through in some order of its own. -/
def contractStates (order : Table (Nat × Nat) → List (Bytes × Nat × Nat)) (s : Store) : Report :=
  let st := tally sha256 (legacyActions s)
  let addresses := (order st.perAddress).mergeSort byBytes
  { records := st.records
    failedActions := st.failedActions
    logicalBytes := st.logicalBytes
    uniqueHashes := st.seen.length
    uniqueBytes := st.uniqueBytes
    histogram := labels.zip st.histogram
    topAddresses := (addresses.take 10).map (fun row => (hexEncode row.1, row.2)) }

def measure (order : Table (Nat × Nat) → List (Bytes × Nat × Nat)) :
    ContractMigration.Task Report := do
  let schema ← openStore
  if schema < schemaCurrent then do
    let s ← look tables
    pure (contractStates sha256 order s)
  else .fail (.error "store already migrated to content-addressed states; nothing to measure")

end Measure

section Tallies

variable {sha256 : Bytes → ByteArr 32} {rows : List LegacyAction} {entry : LegacyAction}

theorem tally_push (rows : List LegacyAction) (entry : LegacyAction) :
    tally sha256 (rows ++ [entry]) = (tally sha256 rows).addRecord sha256 entry := by
  rw [tally, List.foldl_append]
  rfl

theorem state_length {state : Bytes} : state.length = 0 ↔ state = [] := List.length_eq_zero_iff

def stated (rows : List LegacyAction) (p : LegacyAction → Bool) : List LegacyAction :=
  rows.filter (fun entry => decide (entry.2.state ≠ []) && p entry)

theorem stated_push (p : LegacyAction → Bool) : stated (rows ++ [entry]) p =
    stated rows p ++ if entry.2.state ≠ [] ∧ p entry = true then [entry] else [] := by
  rw [stated, List.filter_append, stated, List.filter_singleton]
  congr 1
  by_cases hstate : entry.2.state = []
  · simp [hstate]
  · simp [hstate]

def inBucket (i : Nat) (entry : LegacyAction) : Bool := decide (bucketOf entry.2.state.length = i)

def atAddress (address : Bytes) (entry : LegacyAction) : Bool := decide (entry.2.address = address)

def stateBytes (rows : List LegacyAction) : Nat := (rows.map (fun entry => entry.2.state.length)).sum

theorem stateBytes_append (front rest : List LegacyAction) :
    stateBytes (front ++ rest) = stateBytes front + stateBytes rest := by
  rw [stateBytes, List.map_append, List.sum_append]
  rfl

structure Counted (rows : List LegacyAction) (st : Tally) : Prop where
  records : st.records = rows.length
  failed : st.failedActions = rows.countP (fun entry => decide (entry.2.state = []))
  logical : st.logicalBytes = stateBytes rows
  histogram : st.histogram = (List.range 6).map (fun i => (stated rows (inBucket i)).length)
  addresses : ∀ address : Bytes, (st.perAddress[address]?).getD (0, 0) =
    ((stated rows (atAddress address)).length, stateBytes (stated rows (atAddress address)))

theorem histogram_push (hstate : entry.2.state ≠ []) :
    ((List.range 6).map (fun i => (stated rows (inBucket i)).length)).modify
        (bucketOf entry.2.state.length) (· + 1) =
      (List.range 6).map (fun i => (stated (rows ++ [entry]) (inBucket i)).length) := by
  apply List.ext_getElem
  · simp
  · intro i hi _
    rw [List.getElem_modify]
    simp only [List.getElem_map, List.getElem_range, stated_push, List.length_append]
    by_cases hbucket : bucketOf entry.2.state.length = i
    · simp [hbucket, hstate, inBucket]
    · simp [hbucket, inBucket]

theorem stated_failed (p : LegacyAction → Bool) (hfailed : entry.2.state = []) :
    stated (rows ++ [entry]) p = stated rows p := by
  rw [stated_push, if_neg (fun h => h.1 hfailed), List.append_nil]

theorem tally_counted (rows : List LegacyAction) : Counted rows (tally sha256 rows) := by
  induction rows using List.reverseRecOn with
  | nil =>
      refine ⟨rfl, rfl, rfl, rfl, ?_⟩
      intro address
      rw [tally, List.foldl_nil, Tally.start, get_empty]
      rfl
  | append_singleton rows entry ih =>
      have hlogical := stateBytes_append rows [entry]
      rw [tally_push, Tally.addRecord]
      by_cases hfailed : entry.2.state = []
      · rw [if_pos (state_length.mpr hfailed)]
        refine ⟨?_, ?_, ?_, ?_, ?_⟩
        · simp [ih.records]
        · simp [ih.failed, hfailed]
        · rw [hlogical]
          simp [ih.logical, stateBytes, hfailed]
        · simp only [stated_failed _ hfailed]
          exact ih.histogram
        · intro address
          rw [stated_failed _ hfailed]
          exact ih.addresses address
      · rw [if_neg (fun hlen => hfailed (state_length.mp hlen))]
        refine ⟨?_, ?_, ?_, ?_, ?_⟩
        · simp [ih.records]
        · simp [ih.failed, hfailed]
        · rw [hlogical]
          simp [ih.logical, stateBytes]
        · dsimp only
          rw [ih.histogram]
          exact histogram_push hfailed
        · intro address
          dsimp only
          by_cases hsame : entry.2.address = address
          · subst hsame
            rw [get_insert, if_pos rfl, Option.getD_some, ih.addresses, stated_push,
              if_pos ⟨hfailed, decide_eq_true rfl⟩, List.length_append, stateBytes_append]
            rfl
          · rw [get_insert, if_neg hsame, ih.addresses, stated_push,
              if_neg (fun h => hsame (of_decide_eq_true h.2)), List.append_nil]

variable (sha256) in
/-- The states that no earlier record has, in the order of the records. -/
structure Firsts (rows : List LegacyAction) (st : Tally) (firsts : List Bytes) : Prop where
  mem : ∀ state, state ∈ firsts ↔ state ≠ [] ∧ ∃ entry ∈ rows, entry.2.state = state
  seen : ∀ hash, hash ∈ st.seen ↔ ∃ state ∈ firsts, sha256 state = hash
  nodup : firsts.Nodup
  count : st.seen.length = firsts.length
  bytes : st.uniqueBytes = (firsts.map List.length).sum

theorem Firsts.known {st : Tally} {firsts : List Bytes} (h : Firsts sha256 rows st firsts)
    (hsafe : NoCollision sha256 ((rows ++ [entry]).map (·.2.state))) :
    sha256 entry.2.state ∈ st.seen ↔ entry.2.state ∈ firsts := by
  rw [h.seen]
  constructor
  · rintro ⟨state, hstate, hhash⟩
    obtain ⟨-, old, hold, rfl⟩ := (h.mem state).mp hstate
    have hsame := hsafe _ (List.mem_map_of_mem (List.mem_append_left _ hold)) _
      (List.mem_map_of_mem (List.mem_append_right _ List.mem_cons_self)) hhash
    rwa [hsame] at hstate
  · intro hstate
    exact ⟨_, hstate, rfl⟩

theorem Firsts.push {firsts : List Bytes} (h : Firsts sha256 rows (tally sha256 rows) firsts)
    (hsafe : NoCollision sha256 ((rows ++ [entry]).map (·.2.state))) :
    ∃ firsts', Firsts sha256 (rows ++ [entry]) (tally sha256 (rows ++ [entry])) firsts' := by
  have hmem : ∀ state, (∃ old ∈ rows ++ [entry], old.2.state = state) ↔
      (∃ old ∈ rows, old.2.state = state) ∨ entry.2.state = state := by
    intro state
    simp [or_and_right, exists_or]
  rw [tally_push, Tally.addRecord]
  by_cases hfailed : entry.2.state = []
  · rw [if_pos (state_length.mpr hfailed)]
    refine ⟨firsts, ?_, h.seen, h.nodup, h.count, h.bytes⟩
    intro state
    rw [h.mem, hmem]
    refine and_congr_right fun hstate => ⟨.inl, fun hor => hor.resolve_right fun hsame => ?_⟩
    exact hstate (hsame.symm.trans hfailed)
  · rw [if_neg (fun hlen => hfailed (state_length.mp hlen))]
    have hknown := h.known hsafe
    by_cases hfresh : entry.2.state ∈ firsts
    · have hseen := not_not.mpr (hknown.mpr hfresh)
      refine ⟨firsts, ?_, ?_, h.nodup, ?_, ?_⟩
      · intro state
        rw [h.mem, hmem]
        refine and_congr_right fun hstate => ⟨.inl, fun hor => hor.elim id fun hsame => ?_⟩
        rw [← hsame]
        exact ((h.mem _).mp hfresh).2
      · dsimp only
        rw [if_neg hseen]
        exact h.seen
      · dsimp only
        rw [if_neg hseen]
        exact h.count
      · dsimp only
        rw [if_neg hseen]
        exact h.bytes
    · have hseen := fun hold => hfresh (hknown.mp hold)
      refine ⟨firsts ++ [entry.2.state], ?_, ?_, ?_, ?_, ?_⟩
      · intro state
        rw [List.mem_append, List.mem_singleton, h.mem, hmem]
        constructor
        · rintro (⟨hstate, hold⟩ | rfl)
          · exact ⟨hstate, .inl hold⟩
          · exact ⟨hfailed, .inr rfl⟩
        · rintro ⟨hstate, hold | hsame⟩
          · exact .inl ⟨hstate, hold⟩
          · exact .inr hsame.symm
      · intro hash
        dsimp only
        rw [if_pos hseen, List.mem_cons, h.seen]
        constructor
        · rintro (rfl | ⟨state, hstate, hhash⟩)
          · exact ⟨_, List.mem_append_right _ List.mem_cons_self, rfl⟩
          · exact ⟨state, List.mem_append_left _ hstate, hhash⟩
        · rintro ⟨state, hstate, hhash⟩
          rcases List.mem_append.mp hstate with hold | hnew
          · exact .inr ⟨state, hold, hhash⟩
          · rw [List.mem_singleton.mp hnew] at hhash
            exact .inl hhash.symm
      · exact h.nodup.append (List.nodup_singleton _) (List.disjoint_singleton.mpr hfresh)
      · dsimp only
        rw [if_pos hseen, List.length_cons, h.count, List.length_append, List.length_singleton]
      · dsimp only
        rw [if_pos hseen, h.bytes]
        simp

theorem tally_firsts (hsafe : NoCollision sha256 (rows.map (·.2.state))) :
    ∃ firsts, Firsts sha256 rows (tally sha256 rows) firsts := by
  induction rows using List.reverseRecOn with
  | nil => exact ⟨[], by simp, by simp [tally, Tally.start], List.nodup_nil, rfl, rfl⟩
  | append_singleton rows entry ih =>
      have hfront : NoCollision sha256 (rows.map (·.2.state)) := by
        intro a ha b hb
        apply hsafe
        · rw [List.map_append]
          exact List.mem_append_left _ ha
        · rw [List.map_append]
          exact List.mem_append_left _ hb
      obtain ⟨firsts, h⟩ := ih hfront
      exact h.push hsafe

end Tallies

section Sizes

variable {sha256 : Bytes → ByteArr 32} {legacy : Table LegacyContractActionRecord} {s : Store}

structure Sizes (report : Report) (s : Store) : Prop where
  actions : (s .contractActions).toList.length = report.records
  failed : (s .contractActions).toList.countP (fun row => decide (row.2.stateHash = none)) =
    report.failedActions
  states : (s .contractStates).toList.length = report.uniqueHashes
  bytes : sumOf (s .contractStates) List.length = report.uniqueBytes
  logical : ((s .contractActions).toList.map (fun row =>
    ((row.2.stateHash.bind fun hash => (s .contractStates)[hash.val]?).getD []).length)).sum =
      report.logicalBytes

theorem migrated_rows (h : Complete sha256 legacy s) : (s .contractActions).toList =
    legacy.toList.map (fun entry => (entry.1, migrated sha256 entry.2)) := by
  apply rows_eq_of_sorted (rows_sorted _)
  · exact (rows_sorted legacy).map _ fun _ _ hlt => hlt
  · rintro ⟨k, record⟩
    rw [mem_rows, h.actions, Option.map_eq_some_iff, List.mem_map]
    constructor
    · rintro ⟨old, hold, rfl⟩
      exact ⟨(k, old), mem_rows.mpr hold, rfl⟩
    · rintro ⟨⟨k', old⟩, hold, he⟩
      obtain ⟨rfl, rfl⟩ := Prod.mk.inj he
      exact ⟨old, mem_rows.mp hold, rfl⟩

theorem states_perm (h : Complete sha256 legacy s) {st : Tally} {firsts : List Bytes}
    (hfirsts : Firsts sha256 legacy.toList st firsts) :
    ((s .contractStates).toList.map Prod.snd).Perm firsts := by
  apply (List.perm_ext_iff_of_nodup _ hfirsts.nodup).mpr
  · intro state
    rw [hfirsts.mem, List.mem_map]
    constructor
    · rintro ⟨⟨k, v⟩, hrow, rfl⟩
      obtain ⟨hne, -, key, record, hrecord, hstate⟩ := (h.states k v).mp (mem_rows.mp hrow)
      exact ⟨hne, (key, record), mem_rows.mpr hrecord, hstate⟩
    · rintro ⟨hne, ⟨key, record⟩, hrecord, rfl⟩
      exact ⟨((sha256 record.state).val, record.state), mem_rows.mpr ((h.states _ _).mpr
        ⟨hne, rfl, key, record, mem_rows.mp hrecord, rfl⟩), rfl⟩
  · refine List.Nodup.map_on ?_ (rows_nodup _)
    rintro ⟨k, v⟩ hrow ⟨k', v'⟩ hrow' he
    obtain rfl : v = v' := he
    obtain ⟨-, hk, -⟩ := (h.states k v).mp (mem_rows.mp hrow)
    obtain ⟨-, hk', -⟩ := (h.states k' v).mp (mem_rows.mp hrow')
    rw [hk, hk']

theorem migrated_state (h : Complete sha256 legacy s) {entry : LegacyAction} (hentry : entry ∈ legacy.toList) :
    ((migrated sha256 entry.2).stateHash.bind fun hash => (s .contractStates)[hash.val]?).getD [] =
      entry.2.state := by
  rw [migrated]
  dsimp only [stateHash]
  by_cases hempty : entry.2.state = []
  · rw [if_pos hempty, hempty]
    rfl
  · rw [if_neg hempty, Option.bind_some, (h.states _ _).mpr
      ⟨hempty, rfl, entry.1, entry.2, mem_rows.mp hentry, rfl⟩]
    rfl

theorem complete_sizes (h : Complete sha256 legacy s) {before : Store}
    (hbefore : before .legacyContractActions = legacy)
    (hsafe : NoCollision sha256 ((legacyActions before).map (·.2.state)))
    (order : Table (Nat × Nat) → List (Bytes × Nat × Nat)) :
    Sizes (contractStates sha256 order before) s := by
  have hrows : legacyActions before = legacy.toList := congrArg Std.ExtTreeMap.toList hbefore
  rw [hrows] at hsafe
  obtain ⟨firsts, hfirsts⟩ := tally_firsts hsafe
  have hcounted : Counted legacy.toList (tally sha256 legacy.toList) := tally_counted _
  have hperm := states_perm h hfirsts
  constructor
  · rw [migrated_rows h, List.length_map, contractStates, hrows]
    exact hcounted.records.symm
  · rw [migrated_rows h, List.countP_map, contractStates, hrows]
    refine Eq.trans ?_ hcounted.failed.symm
    apply List.countP_congr
    intro entry _
    by_cases hempty : entry.2.state = []
    · simp [migrated, stateHash, hempty]
    · simp [migrated, stateHash, hempty]
  · have hlength := hperm.length_eq
    rw [List.length_map] at hlength
    rw [hlength, contractStates, hrows]
    exact hfirsts.count.symm
  · have hsum := (hperm.map List.length).sum_eq
    rw [List.map_map] at hsum
    rw [contractStates, hrows]
    exact hsum.trans hfirsts.bytes.symm
  · rw [migrated_rows h, List.map_map, contractStates, hrows]
    refine Eq.trans ?_ hcounted.logical.symm
    congr 1
    apply List.map_congr_left
    intro entry hentry
    exact congrArg List.length (migrated_state h hentry)

end Sizes

section Restart

variable {sha256 : Bytes → ByteArr 32} {legacy : Table LegacyContractActionRecord} {dir : Directory}
  {batches : List StoreBatch} {ks : Keyspace}

theorem legacy_kept (h : Sound sha256 legacy dir batches) (hschema : detectSchema dir.tables ≠ schemaCurrent) :
    detectSchema dir.tables = 1 ∧ dir.tables .legacyContractActions = legacy := by
  obtain ⟨front, rest, -, -, hphase⟩ := h
  cases hphase with
  | copying one cursor hasLegacy rows => exact ⟨one, rows⟩
  | cutOver version => exact absurd (detectSchema_of_version version) hschema

theorem openStore_schema (ks : Keyspace) :
    ∃ ks', openStore.run ks = (.ok (detectSchema (tables ks)), ks') := by
  rw [openStore, run_bind, run_look]
  dsimp only
  split
  · split
    · exact ⟨_, rfl⟩
    · exact ⟨_, rfl⟩
  · split
    · exact ⟨_, rfl⟩
    · exact ⟨_, rfl⟩

theorem contractStates_of_rows {s s' : Store} (hrows : s .legacyContractActions = s' .legacyContractActions)
    (order : Table (Nat × Nat) → List (Bytes × Nat × Nat)) :
    contractStates sha256 order s = contractStates sha256 order s' := by
  rw [contractStates, contractStates, legacyActions, hrows]
  rfl

theorem migrate_completes (hempty : ks.journal = []) (hsound : Sound sha256 legacy ks.durable ks.survived)
    (hsafe : NoCollision sha256 (legacy.toList.map (·.2.state)))
    (hkeys : ∀ entry ∈ legacy.toList, entry.1.length = 8) :
    ∃ counts ks', (migrate sha256).run ks = (.ok counts, ks') ∧ ks'.journal = [] ∧
      Complete sha256 legacy ks'.durable.tables := by
  have hkeeps := migrate_keeps hempty hsound hsafe hkeys
  rcases hrun : (migrate sha256).run ks with ⟨e | counts, ks'⟩
  · exact absurd (hkeeps.run_error hrun).2 id
  · obtain ⟨hall, hjournal, hversion, -⟩ := hkeeps.run_ok hrun
    exact ⟨counts, ks', rfl, hjournal,
      ((safe_of_empty hjournal).mp hall).complete (detectSchema_of_version hversion)⟩

/-- A start measures only what a start before the cutover finds. -/
theorem measure_run (hempty : ks.journal = []) (hsound : Sound sha256 legacy ks.durable ks.survived)
    (order : Table (Nat × Nat) → List (Bytes × Nat × Nat)) :
    (detectSchema ks.durable.tables = schemaCurrent ∧ ∃ e ks', (measure sha256 order).run ks = (.error e, ks')) ∨
    detectSchema ks.durable.tables ≠ schemaCurrent ∧ ∃ s ks', s .legacyContractActions = legacy ∧
      (measure sha256 order).run ks = (.ok (contractStates sha256 order s), ks') := by
  obtain ⟨ks', hopen⟩ := openStore_schema ks
  obtain ⟨hall, hjournal, hschema⟩ := (openStore_keeps hempty ((safe_of_empty hempty).mpr hsound)).run_ok hopen
  have hsound' := (safe_of_empty hjournal).mp hall
  rw [measure, run_bind, hopen, tables_of_empty hempty]
  rw [tables_of_empty hempty] at hschema
  dsimp only
  by_cases hcurrent : detectSchema ks.durable.tables = schemaCurrent
  · rw [hcurrent, if_neg (lt_irrefl _)]
    exact .inl ⟨rfl, _, _, rfl⟩
  · obtain ⟨hone, -⟩ := legacy_kept hsound hcurrent
    rw [hone, if_pos (by decide)]
    rw [hschema] at hcurrent
    obtain ⟨-, hrows⟩ := legacy_kept hsound' hcurrent
    refine .inr ⟨by decide, tables ks', ks', ?_, rfl⟩
    rw [tables_of_empty hjournal, hrows]

/-- The measurement taken at any start before the cutover is that of the first
store, and says the sizes of the tables with which the migration then ends. -/
theorem measure_sizes_migration (sha256 : Bytes → ByteArr 32) {dir : Directory}
    (hdir : SchemaOne dir)
    (hsafe : NoCollision sha256 ((legacyActions dir.tables).map (·.2.state))) {ks : Keyspace}
    (hrestarts : Restarts Directory.applyBatch (migrate sha256) dir ks)
    (order : Table (Nat × Nat) → List (Bytes × Nat × Nat)) :
    (∀ report ks', (measure sha256 order).run ks = (.ok report, ks') →
      report = contractStates sha256 order dir.tables) ∧
    (detectSchema ks.durable.tables ≠ schemaCurrent →
      ∃ ks', (measure sha256 order).run ks = (.ok (contractStates sha256 order dir.tables), ks')) ∧
    ∃ counts ks', (migrate sha256).run ks = (.ok counts, ks') ∧
      Sizes (contractStates sha256 order dir.tables) ks'.durable.tables := by
  have hkeeps : ∀ ks : Keyspace, ks.journal = [] →
      Sound sha256 (dir.tables .legacyContractActions) ks.durable ks.survived →
      KeepsSound sha256 (dir.tables .legacyContractActions) (fun _ ks' => Ended ks')
        (migrate sha256) ks :=
    fun ks hempty hsound => migrate_keeps hempty hsound hsafe hdir.keys
  obtain ⟨hempty, hsound⟩ := hrestarts.sound hdir.sound hkeeps
  have hrun := measure_run hempty hsound order
  refine ⟨?_, ?_, ?_⟩
  · intro report ks' hreport
    rcases hrun with ⟨-, e, ks'', herror⟩ | ⟨-, s, ks'', hrows, hok⟩
    · rw [herror] at hreport
      cases hreport
    · rw [hok] at hreport
      obtain rfl := Except.ok.inj (Prod.mk.inj hreport).1
      exact contractStates_of_rows hrows order
  · intro hschema
    rcases hrun with ⟨hcurrent, -⟩ | ⟨-, s, ks'', hrows, hok⟩
    · exact absurd hcurrent hschema
    · exact ⟨ks'', contractStates_of_rows hrows order ▸ hok⟩
  · obtain ⟨counts, ks', hmigrated, hjournal, hcomplete⟩ := migrate_completes hempty hsound hsafe hdir.keys
    exact ⟨counts, ks', hmigrated, complete_sizes hcomplete rfl hsafe order⟩

theorem measure_sizes_migration_sample : ∃ counts ks',
    (migrate sampleSha256).run ((started sampleDirectory).crash Directory.applyBatch 0) = (.ok counts, ks') ∧
      Sizes (contractStates sampleSha256 Std.ExtTreeMap.toList sampleDirectory.tables)
        ks'.durable.tables := by
  have hsafe : NoCollision sampleSha256 ((legacyActions sampleDirectory.tables).map (·.2.state)) := by
    rw [sample_actions, NoCollision]
    decide
  exact (measure_sizes_migration sampleSha256 sample_schemaOne hsafe (.again .start .cut 0) _).2.2

end Restart

end Nightfrost.StateMeasure
