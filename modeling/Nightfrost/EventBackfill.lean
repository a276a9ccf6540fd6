import Nightfrost.Offline

namespace Nightfrost.EventBackfill

open ByteOrder Tables Partitions Domain Schema WriteBlock Scripts DenseIds Offline

structure BackfillCounts where
  eventsScanned : Nat
  contractEventsIndexed : Nat
  eventsCorrelated : Nat
  recordsRewritten : Nat
  deriving DecidableEq

abbrev Actions := List (Nat × ContractActionRecord)

structure EventScan where
  counts : BackfillCounts
  actionsCache : List (Nat × Actions)
  batch : StoreBatch
  pending : Nat

def EventScan.start : EventScan := ⟨⟨0, 0, 0, 0⟩, [], [], 0⟩

def cacheLimit : Nat := 10000

def loadAction (actionId : Nat) : Job (Nat × ContractActionRecord) := do
  match ← look (actionAt · actionId) with
  | none => .fail (.error ("missing contract action " ++ toString actionId))
  | some action => pure (actionId, action)

def loadActions (txId eventId : Nat) : Job Actions := do
  match ← look (tx · txId) with
  | none => .fail (.error ("missing tx record " ++ toString txId ++ " for event " ++ toString eventId))
  | some tx => collect loadAction tx.contractActionIds

/-- The vacancy test, the insertion and the eviction, which spares no entry. -/
def cacheActions (actionsCache : List (Nat × Actions)) (txId eventId : Nat) :
    Job (List (Nat × Actions)) :=
  match actionsCache.lookup txId with
  | some _ => pure actionsCache
  | none => do
      let actions ← loadActions txId eventId
      let actionsCache := (txId, actions) :: actionsCache
      pure (if actionsCache.length > cacheLimit then [] else actionsCache)

def cachedActions (actionsCache : List (Nat × Actions)) (txId : Nat) : Job Actions :=
  match actionsCache.lookup txId with
  | some actions => pure actions
  | none => .fail .panic

def describe (actions : Actions) : List (Nat × Bytes × ContractAttributes) :=
  actions.map (fun entry => (entry.1, entry.2.address, entry.2.attributes))

def rewritten (record : EventRecord) (actions : Actions) : EventRecord :=
  { record with event := correlated (describe actions) record.event }

def EventScan.seen (st : EventScan) : EventScan :=
  { st with counts := { st.counts with eventsScanned := st.counts.eventsScanned + 1 } }

def EventScan.index (st : EventScan) (address : Bytes) (eventId : Nat) : EventScan :=
  { st with
    batch := st.batch ++ [.put .eventsByContract (prefixedU64Key address eventId) ()]
    counts := { st.counts with contractEventsIndexed := st.counts.contractEventsIndexed + 1 }
    pending := st.pending + 1 }

def EventScan.correlate (st : EventScan) (key : Bytes) (record : EventRecord) (actions : Actions) :
    EventScan :=
  let record' := rewritten record actions
  let st := if record'.event.contractActionId.isSome then
    { st with counts := { st.counts with eventsCorrelated := st.counts.eventsCorrelated + 1 } } else st
  if record.event.contractActionId ≠ record'.event.contractActionId then
    { st with
      batch := st.batch ++ [.put .ledgerEvents key record']
      counts := { st.counts with recordsRewritten := st.counts.recordsRewritten + 1 }
      pending := st.pending + 1 }
  else st

def EventScan.commitFull (st : EventScan) : Job EventScan :=
  if st.pending ≥ commitEvery then do
    commitBatch st.batch
    pure { st with batch := [], pending := 0 }
  else pure st

def backfillContractEvent (st : EventScan) (key : Bytes) (record : EventRecord) : Job EventScan :=
  let eventId := fromBe key
  match record.event.contractAddress with
  | none => .fail (.error ("contract event " ++ toString eventId ++ " without contract address"))
  | some address => do
      let st := st.index address eventId
      let actionsCache ← cacheActions st.actionsCache record.txId eventId
      let actions ← cachedActions actionsCache record.txId
      ({ st with actionsCache }.correlate key record actions).commitFull

def backfillEvent (st : EventScan) (entry : Bytes × EventRecord) : Job EventScan :=
  if entry.1.length ≠ 8 then .fail (.error "8-byte event id")
  else if entry.2.event.grouping ≠ .contract then pure st.seen
  else backfillContractEvent st.seen entry.1 entry.2

/-- The scan runs on the rows at its start: it rewrites only rows behind it. The
sync at the end changes no row. -/
def backfillContractEvents : Job BackfillCounts := do
  let entries ← look (fun s => (s .ledgerEvents).toList)
  let st ← entries.foldlM backfillEvent EventScan.start
  commitBatch st.batch
  pure st.counts

section Correlation

variable {s s' : Store}

def actionsIn (s : Store) (txId : Nat) : Actions :=
  ((tx s txId).elim [] TxRecord.contractActionIds).filterMap
    (fun actionId => (actionAt s actionId).map (actionId, ·))

def correlatedIn (s : Store) (record : EventRecord) : EventRecord :=
  if record.event.grouping = .contract then rewritten record (actionsIn s record.txId) else record

def FiledIn (s : Store) (key : Bytes) : Prop :=
  ∃ k record, (s .ledgerEvents)[k]? = some record ∧ record.event.grouping = .contract ∧
    ∃ address, record.event.contractAddress = some address ∧ key = prefixedU64Key address (fromBe k)

theorem correlatedIn_txId (record : EventRecord) : (correlatedIn s record).txId = record.txId := by
  rw [correlatedIn]
  split <;> rfl

theorem correlatedIn_grouping (record : EventRecord) :
    (correlatedIn s record).event.grouping = record.event.grouping := by
  rw [correlatedIn]
  split <;> rfl

theorem correlatedIn_address (record : EventRecord) :
    (correlatedIn s record).event.contractAddress = record.event.contractAddress := by
  rw [correlatedIn]
  split <;> rfl

theorem rewritten_rewritten (record : EventRecord) (actions : Actions) :
    rewritten (rewritten record actions) actions = rewritten record actions := by
  have hor : ∀ x y : Option Nat, x.or (x.or y) = x.or y := by
    intro x y
    cases x <;> rfl
  show (⟨⟨_, _, _, (correlateContractActionId record.event (describe actions)).or
    ((correlateContractActionId record.event (describe actions)).or record.event.contractActionId), _⟩,
    _, _⟩ : EventRecord) = _
  rw [hor]
  rfl

theorem correlatedIn_correlatedIn (record : EventRecord) :
    correlatedIn s (correlatedIn s record) = correlatedIn s record := by
  by_cases hcontract : record.event.grouping = .contract
  · have hagain : (correlatedIn s record).event.grouping = .contract :=
      (correlatedIn_grouping record).trans hcontract
    rw [correlatedIn, if_pos hagain, correlatedIn_txId, correlatedIn, if_pos hcontract]
    exact rewritten_rewritten record _
  · have hagain : (correlatedIn s record).event.grouping ≠ .contract := by
      rw [correlatedIn_grouping]
      exact hcontract
    rw [correlatedIn, if_neg hagain]

/-- The stores that runs on a store may leave: each event is as it was or
correlated, and the index has grown by keys of contract events. -/
structure Between (s₀ s : Store) : Prop where
  events : ∀ k : Bytes, (s .ledgerEvents)[k]? = (s₀ .ledgerEvents)[k]? ∨
    (s .ledgerEvents)[k]? = ((s₀ .ledgerEvents)[k]?).map (correlatedIn s₀)
  filed : ∀ key : Bytes, key ∈ s₀ .eventsByContract → key ∈ s .eventsByContract
  byContract : ∀ key : Bytes, key ∈ s .eventsByContract → key ∈ s₀ .eventsByContract ∨ FiledIn s₀ key
  others : ∀ p : Part, p ≠ .ledgerEvents → p ≠ .eventsByContract → s p = s₀ p

theorem Between.refl (s : Store) : Between s s :=
  ⟨fun _ => .inl rfl, fun _ h => h, fun _ h => .inl h, fun _ _ _ => rfl⟩

/-- One event and its index entry are as the live pipeline would have them. -/
structure Settled (s₀ s : Store) (k : Bytes) (record : EventRecord) : Prop where
  event : (s .ledgerEvents)[k]? = some (correlatedIn s₀ record)
  filed : record.event.grouping = .contract → ∀ address, record.event.contractAddress = some address →
    prefixedU64Key address (fromBe k) ∈ s .eventsByContract

inductive Rewrite (s₀ : Store) : Op Part.Val → Prop
  | file {key : Bytes} (h : FiledIn s₀ key) : Rewrite s₀ (.put .eventsByContract key ())
  | event {k : Bytes} {record : EventRecord} (h : (s₀ .ledgerEvents)[k]? = some record) :
      Rewrite s₀ (.put .ledgerEvents k (correlatedIn s₀ record))

theorem Between.apply {s₀ : Store} (h : Between s₀ s) {o : Op Part.Val} (ho : Rewrite s₀ o) :
    Between s₀ (o.apply s) := by
  cases ho with
  | file hfiled =>
      refine ⟨fun k => ?_, fun key hkey => ?_, fun key hkey => ?_, fun p hp hp' => ?_⟩
      · rw [apply_put_other s (by decide)]
        exact h.events k
      · rw [apply_put_same, Tables.mem_insert]
        exact .inr (h.filed key hkey)
      · rw [apply_put_same, Tables.mem_insert] at hkey
        rcases hkey with rfl | hkey
        · exact .inr hfiled
        · exact h.byContract key hkey
      · rw [apply_put_other s hp']
        exact h.others p hp hp'
  | event hget =>
      refine ⟨fun k => ?_, fun key hkey => ?_, fun key hkey => ?_, fun p hp hp' => ?_⟩
      · rw [apply_put_same, get_insert]
        split
        · rename_i he
          rw [← he, hget]
          exact .inr rfl
        · exact h.events k
      · rw [apply_put_other s (by decide)]
        exact h.filed key hkey
      · rw [apply_put_other s (by decide)] at hkey
        exact h.byContract key hkey
      · rw [apply_put_other s hp]
        exact h.others p hp hp'

theorem Settled.apply {s₀ : Store} {k : Bytes} {record : EventRecord} (h : Settled s₀ s k record)
    (hrecord : (s₀ .ledgerEvents)[k]? = some record) {o : Op Part.Val} (ho : Rewrite s₀ o) :
    Settled s₀ (o.apply s) k record := by
  cases ho with
  | file hfiled =>
      constructor
      · rw [apply_put_other s (by decide)]
        exact h.event
      · intro hcontract address haddress
        rw [apply_put_same, Tables.mem_insert]
        exact .inr (h.filed hcontract address haddress)
  | event hget =>
      constructor
      · rw [apply_put_same, get_insert]
        split
        · rename_i he
          rw [← he, hget] at hrecord
          rw [Option.some.inj hrecord]
        · exact h.event
      · rw [apply_put_other s (by decide)]
        exact h.filed

theorem Between.tx {s₀ : Store} (h : Between s₀ s) (txId : Nat) : tx s txId = tx s₀ txId := by
  unfold Schema.tx
  rw [h.others .txs (by decide) (by decide)]

theorem Between.actionAt {s₀ : Store} (h : Between s₀ s) (actionId : Nat) :
    actionAt s actionId = actionAt s₀ actionId := by
  unfold DenseIds.actionAt
  rw [h.others .contractActions (by decide) (by decide)]

end Correlation

section Scan

def txIdsOf (rows : List (Bytes × EventRecord)) : Finset Nat :=
  ((rows.filter (fun row => row.2.event.grouping = .contract)).map (fun row => row.2.txId)).toFinset

def contractTxIds (s : Store) : Finset Nat := txIdsOf (s .ledgerEvents).toList

/-- Every contract event has an address and a transaction, whose actions are stored. -/
structure Integrity (s : Store) : Prop where
  keys : ∀ (k : Bytes) record, (s .ledgerEvents)[k]? = some record → k.length = 8
  addresses : ∀ (k : Bytes) record, (s .ledgerEvents)[k]? = some record →
    record.event.grouping = .contract → record.event.contractAddress ≠ none
  txs : ∀ (k : Bytes) record, (s .ledgerEvents)[k]? = some record →
    record.event.grouping = .contract → ∃ t, tx s record.txId = some t ∧
      ∀ actionId ∈ t.contractActionIds, actionAt s actionId ≠ none

/-- How a run on a store with referential integrity stops before its end. -/
def Stops (s : Store) (e : Fault) : Prop :=
  Integrity s → e = .panic ∧ cacheLimit < (contractTxIds s).card

structure Cached (s₀ : Store) (txIds : Finset Nat) (actionsCache : List (Nat × Actions)) : Prop where
  actions : ∀ txId actions, actionsCache.lookup txId = some actions → actions = actionsIn s₀ txId
  nodup : (actionsCache.map Prod.fst).Nodup
  keys : (actionsCache.map Prod.fst).toFinset = txIds
  limit : actionsCache.length ≤ cacheLimit

structure Scanned (s₀ : Store) (front : List (Bytes × EventRecord)) (st : EventScan) (s : Store) :
    Prop where
  rows : ∀ row ∈ front, (s₀ .ledgerEvents)[row.1]? = some row.2
  writes : ∀ o ∈ st.batch, Rewrite s₀ o
  settled : ∀ row ∈ front, Settled s₀ (commit s st.batch) row.1 row.2
  cached : Cached s₀ (txIdsOf front) st.actionsCache
  rewrites : st.counts.recordsRewritten =
    front.countP (fun row => decide (correlatedIn s₀ row.2 ≠ row.2))

variable {s₀ s : Store} {st : EventScan} {front : List (Bytes × EventRecord)}

theorem lookup_eq_none {α : Type} {entries : List (Nat × α)} {k : Nat} :
    entries.lookup k = none ↔ k ∉ entries.map Prod.fst := by
  rw [List.lookup_eq_none_iff, List.mem_map]
  constructor
  · rintro h ⟨entry, hentry, rfl⟩
    exact absurd (h entry hentry) (by simp)
  · intro h entry hentry
    exact bne_iff_ne.mpr (fun he => h ⟨entry, hentry, he.symm⟩)

theorem loadActions_keeps (hb : Between s₀ s) {k : Bytes} {record : EventRecord}
    (hget : (s₀ .ledgerEvents)[k]? = some record) (hcontract : record.event.grouping = .contract)
    (eventId : Nat) :
    Keeps (Between s₀) (Stops s₀) (fun actions s' => actions = actionsIn s₀ record.txId ∧ s' = s)
      (loadActions record.txId eventId) s := by
  apply keeps_look hb
  rw [hb.tx, actionsIn]
  cases htx : tx s₀ record.txId with
  | none =>
      refine keeps_fail hb (fun hintegrity => ?_)
      obtain ⟨t, ht, -⟩ := hintegrity.txs k record hget hcontract
      rw [htx] at ht
      cases ht
  | some t =>
      refine keeps_collect hb (fun actionId hid => ?_)
      apply keeps_look hb
      rw [hb.actionAt]
      cases haction : actionAt s₀ actionId with
      | none =>
          refine keeps_fail hb (fun hintegrity => ?_)
          obtain ⟨t', ht', hall⟩ := hintegrity.txs k record hget hcontract
          obtain rfl := Option.some.inj (htx.symm.trans ht')
          exact absurd haction (hall actionId hid)
      | some action => exact keeps_pure hb ⟨rfl, rfl⟩

/-- After the vacancy test, the insertion and the eviction, the actions are in
the cache unless it was too full for them. -/
theorem cacheActions_keeps (hb : Between s₀ s) {txIds : Finset Nat}
    {actionsCache : List (Nat × Actions)} (hc : Cached s₀ txIds actionsCache) {k : Bytes}
    {record : EventRecord} (hget : (s₀ .ledgerEvents)[k]? = some record)
    (hcontract : record.event.grouping = .contract) (eventId : Nat) :
    Keeps (Between s₀) (Stops s₀) (fun cache s' => s' = s ∧
        ((Cached s₀ (insert record.txId txIds) cache ∧
            cache.lookup record.txId = some (actionsIn s₀ record.txId)) ∨
          (cache = [] ∧ cacheLimit < (insert record.txId txIds).card)))
      (cacheActions actionsCache record.txId eventId) s := by
  rw [cacheActions]
  cases hlookup : actionsCache.lookup record.txId with
  | some actions =>
      refine keeps_pure hb ⟨rfl, .inl ⟨?_, ?_⟩⟩
      · have hmem : record.txId ∈ txIds := by
          rw [← hc.keys, List.mem_toFinset]
          by_contra hnot
          rw [lookup_eq_none.mpr hnot] at hlookup
          cases hlookup
        rw [Finset.insert_eq_of_mem hmem]
        exact hc
      · rw [hlookup, hc.actions _ _ hlookup]
  | none =>
      have hnew := lookup_eq_none.mp hlookup
      apply keeps_bind (loadActions_keeps hb hget hcontract eventId)
      rintro actions s' hb' ⟨rfl, rfl⟩
      have hnodup : (((record.txId, actionsIn s₀ record.txId) :: actionsCache).map Prod.fst).Nodup :=
        List.nodup_cons.mpr ⟨hnew, hc.nodup⟩
      have hkeys : (((record.txId, actionsIn s₀ record.txId) :: actionsCache).map Prod.fst).toFinset =
          insert record.txId txIds := by
        rw [List.map_cons, List.toFinset_cons, hc.keys]
      refine keeps_pure hb' ⟨rfl, ?_⟩
      split
      · rename_i hfull
        refine .inr ⟨rfl, ?_⟩
        rw [← hkeys, List.toFinset_card_of_nodup hnodup, List.length_map]
        exact hfull
      · rename_i hroom
        refine .inl ⟨⟨?_, hnodup, hkeys, Nat.le_of_not_lt hroom⟩, ?_⟩
        · intro txId actions hactions
          rw [List.lookup_cons] at hactions
          split at hactions
          · rename_i he
            obtain rfl := Option.some.inj hactions
            rw [eq_of_beq he]
          · exact hc.actions txId actions hactions
        · rw [List.lookup_cons, beq_self_eq_true]

theorem Scanned.commitFull (hb : Between s₀ s) (h : Scanned s₀ front st s) :
    Keeps (Between s₀) (Stops s₀) (Scanned s₀ front) st.commitFull s := by
  rw [EventScan.commitFull]
  split
  · refine keeps_change hb (keeps_pure ?_ ?_)
    · exact commit_keeps (fun o ho s hs => hs.apply (h.writes o ho)) hb
    · exact ⟨h.rows, fun o ho => absurd ho List.not_mem_nil, h.settled, h.cached, h.rewrites⟩
  · exact keeps_pure hb h

theorem txIdsOf_other {row : Bytes × EventRecord} (h : row.2.event.grouping ≠ .contract) :
    txIdsOf (front ++ [row]) = txIdsOf front := by
  simp [txIdsOf, h]

theorem txIdsOf_contract {row : Bytes × EventRecord} (h : row.2.event.grouping = .contract) :
    txIdsOf (front ++ [row]) = insert row.2.txId (txIdsOf front) := by
  simp [txIdsOf, h]

theorem txIdsOf_mono (front rest : List (Bytes × EventRecord)) :
    txIdsOf front ⊆ txIdsOf (front ++ rest) := by
  simp [txIdsOf, Finset.subset_union_left]

theorem Between.event_of_fixed (hb : Between s₀ s) {k : Bytes} {record : EventRecord}
    (hget : (s₀ .ledgerEvents)[k]? = some record) (hfixed : correlatedIn s₀ record = record) :
    (s .ledgerEvents)[k]? = some (correlatedIn s₀ record) := by
  rcases hb.events k with hsame | hmapped
  · rw [hsame, hget, hfixed]
  · rw [hmapped, hget]
    rfl

section Correlate

variable (st) (key : Bytes) (record : EventRecord) (actions : Actions)

theorem rewritten_stale : record.event.contractActionId ≠ (rewritten record actions).event.contractActionId ↔
    rewritten record actions ≠ record := by
  constructor
  · intro hstale he
    rw [he] at hstale
    exact hstale rfl
  · intro hne he
    apply hne
    show (⟨⟨_, _, _, (rewritten record actions).event.contractActionId, _⟩, _, _⟩ : EventRecord) = record
    rw [← he]

theorem correlate_batch : (st.correlate key record actions).batch = st.batch ++
    if rewritten record actions ≠ record then [.put .ledgerEvents key (rewritten record actions)]
    else [] := by
  rw [EventScan.correlate]
  simp only [rewritten_stale]
  by_cases hstale : rewritten record actions ≠ record
  · rw [if_pos hstale, if_pos hstale]
    split <;> rfl
  · rw [if_neg hstale, if_neg hstale, List.append_nil]
    split <;> rfl

theorem correlate_cache : (st.correlate key record actions).actionsCache = st.actionsCache := by
  rw [EventScan.correlate]
  dsimp only
  split <;> split <;> rfl

theorem correlate_rewritten : (st.correlate key record actions).counts.recordsRewritten =
    st.counts.recordsRewritten + if rewritten record actions ≠ record then 1 else 0 := by
  rw [EventScan.correlate]
  simp only [rewritten_stale]
  by_cases hstale : rewritten record actions ≠ record
  · rw [if_pos hstale, if_pos hstale]
    split <;> rfl
  · rw [if_neg hstale, if_neg hstale]
    split <;> rfl

end Correlate

theorem Scanned.correlate (hb : Between s₀ s) (h : Scanned s₀ front st s)
    {k : Bytes} {record : EventRecord} (hget : (s₀ .ledgerEvents)[k]? = some record)
    (hcontract : record.event.grouping = .contract) {address : Bytes}
    (haddress : record.event.contractAddress = some address) {cache : List (Nat × Actions)}
    (hcache : Cached s₀ (insert record.txId (txIdsOf front)) cache) :
    Scanned s₀ (front ++ [(k, record)])
      ({ st.index address (fromBe k) with actionsCache := cache }.correlate k record
        (actionsIn s₀ record.txId)) s := by
  have hrecord : rewritten record (actionsIn s₀ record.txId) = correlatedIn s₀ record := by
    rw [correlatedIn, if_pos hcontract]
  have hfile : Rewrite s₀ (.put .eventsByContract (prefixedU64Key address (fromBe k)) ()) :=
    .file ⟨k, record, hget, hcontract, address, haddress, rfl⟩
  have hevent : Rewrite s₀ (.put .ledgerEvents k (correlatedIn s₀ record)) := .event hget
  have hbatch : Between s₀ (commit s st.batch) :=
    commit_keeps (fun o ho s hs => hs.apply (h.writes o ho)) hb
  refine ⟨?_, ?_, ?_, ?_, ?_⟩
  · intro row hrow
    rcases List.mem_append.mp hrow with hrow | hrow
    · exact h.rows row hrow
    · obtain rfl := List.mem_singleton.mp hrow
      exact hget
  · rw [correlate_batch, hrecord]
    intro o ho
    rcases List.mem_append.mp ho with ho | ho
    · rcases List.mem_append.mp ho with ho | ho
      · exact h.writes o ho
      · obtain rfl := List.mem_singleton.mp ho
        exact hfile
    · split at ho
      · obtain rfl := List.mem_singleton.mp ho
        exact hevent
      · cases ho
  · have hold : ∀ row ∈ front, Settled s₀ ((Op.put .eventsByContract
        (prefixedU64Key address (fromBe k)) ()).apply (commit s st.batch)) row.1 row.2 :=
      fun row hrow => (h.settled row hrow).apply (h.rows row hrow) hfile
    have hfiled : ∀ other, record.event.contractAddress = some other →
        prefixedU64Key other (fromBe k) ∈ (Op.put .eventsByContract
          (prefixedU64Key address (fromBe k)) ()).apply (commit s st.batch) .eventsByContract := by
      intro other hother
      obtain rfl := Option.some.inj (haddress.symm.trans hother)
      rw [apply_put_same, Tables.mem_insert]
      exact .inl rfl
    rw [correlate_batch, hrecord]
    show ∀ row ∈ front ++ [(k, record)], Settled s₀ (commit s ((st.batch ++ [_]) ++ _)) row.1 row.2
    rw [commit_append, commit_append, commit_singleton]
    intro row hrow
    by_cases hstale : correlatedIn s₀ record ≠ record
    · rw [if_pos hstale, commit_singleton]
      rcases List.mem_append.mp hrow with hrow | hrow
      · exact (hold row hrow).apply (h.rows row hrow) hevent
      · obtain rfl := List.mem_singleton.mp hrow
        constructor
        · rw [apply_put_same, get_insert, if_pos rfl]
        · intro _ other hother
          rw [apply_put_other _ (by decide)]
          exact hfiled other hother
    · rw [if_neg hstale, commit_nil]
      rcases List.mem_append.mp hrow with hrow | hrow
      · exact hold row hrow
      · obtain rfl := List.mem_singleton.mp hrow
        exact ⟨(hbatch.apply hfile).event_of_fixed hget (not_not.mp hstale), fun _ => hfiled⟩
  · rw [correlate_cache, txIdsOf_contract hcontract]
    exact hcache
  · rw [correlate_rewritten, hrecord, List.countP_append, List.countP_singleton, ← h.rewrites]
    simp [EventScan.index]

theorem Scanned.step (hb : Between s₀ s) (h : Scanned s₀ front st s) {row : Bytes × EventRecord}
    {rest : List (Bytes × EventRecord)} (hrows : (s₀ .ledgerEvents).toList = front ++ row :: rest) :
    Keeps (Between s₀) (Stops s₀) (Scanned s₀ (front ++ [row])) (backfillEvent st row) s := by
  obtain ⟨k, record⟩ := row
  have hget : (s₀ .ledgerEvents)[k]? = some record := by
    rw [← mem_rows, hrows]
    exact List.mem_append_right _ List.mem_cons_self
  rw [backfillEvent]
  split
  · rename_i hlen
    exact keeps_fail hb (fun hintegrity => absurd (hintegrity.keys k record hget) hlen)
  · split
    · rename_i hother
      have hsame : correlatedIn s₀ record = record := if_neg hother
      have hbatch : Between s₀ (commit s st.batch) :=
        commit_keeps (fun o ho s hs => hs.apply (h.writes o ho)) hb
      refine keeps_pure hb ⟨?_, h.writes, ?_, ?_, ?_⟩
      · intro row hrow
        rcases List.mem_append.mp hrow with hrow | hrow
        · exact h.rows row hrow
        · obtain rfl := List.mem_singleton.mp hrow
          exact hget
      · intro row hrow
        rcases List.mem_append.mp hrow with hrow | hrow
        · exact h.settled row hrow
        · obtain rfl := List.mem_singleton.mp hrow
          exact ⟨hbatch.event_of_fixed hget hsame, fun hcontract => absurd hcontract hother⟩
      · rw [txIdsOf_other hother]
        exact h.cached
      · rw [List.countP_append, List.countP_singleton, hsame, ← h.rewrites]
        simp [EventScan.seen]
    · rename_i hcontract
      have hcontract : record.event.grouping = .contract := not_not.mp hcontract
      rw [backfillContractEvent]
      cases haddress : record.event.contractAddress with
      | none =>
          exact keeps_fail hb
            (fun hintegrity => absurd haddress (hintegrity.addresses k record hget hcontract))
      | some address =>
          apply keeps_bind (cacheActions_keeps hb h.cached hget hcontract _)
          rintro cache s' hb' ⟨rfl, hcache⟩
          rcases hcache with ⟨hcache, hlookup⟩ | ⟨rfl, hfull⟩
          · rw [cachedActions]
            rw [hlookup]
            have hseen : Scanned s₀ front st.seen s' :=
              ⟨h.rows, h.writes, h.settled, h.cached, h.rewrites⟩
            exact Scanned.commitFull hb' (hseen.correlate hb' hget hcontract haddress hcache)
          · -- the eviction took the entry that is indexed next
            refine keeps_fail hb' (fun _ => ⟨rfl, Nat.lt_of_lt_of_le hfull ?_⟩)
            have hsub := txIdsOf_mono (front ++ [(k, record)]) rest
            rw [txIdsOf_contract hcontract, List.append_assoc] at hsub
            apply Finset.card_le_card
            rw [contractTxIds, hrows]
            exact hsub

end Scan

section Runs

variable {s₀ s s' : Store}

/-- Every event as the live pipeline would have it, and nothing else changed. -/
structure Finished (s₀ s : Store) : Prop where
  events : ∀ k : Bytes, (s .ledgerEvents)[k]? = ((s₀ .ledgerEvents)[k]?).map (correlatedIn s₀)
  byContract : ∀ key : Bytes, key ∈ s .eventsByContract ↔ key ∈ s₀ .eventsByContract ∨ FiledIn s₀ key
  others : ∀ p : Part, p ≠ .ledgerEvents → p ≠ .eventsByContract → s p = s₀ p

def staleRows (s : Store) : Nat :=
  (s .ledgerEvents).toList.countP (fun row => decide (correlatedIn s row.2 ≠ row.2))

theorem backfill_keeps_start (s₀ : Store) : Keeps (Between s₀) (Stops s₀)
    (fun counts s => Finished s₀ s ∧ counts.recordsRewritten = staleRows s₀ ∧
      (contractTxIds s₀).card ≤ cacheLimit) backfillContractEvents s₀ := by
  apply keeps_look (Between.refl s₀)
  have hstart : Scanned s₀ [] EventScan.start s₀ :=
    ⟨fun _ h => absurd h List.not_mem_nil, fun _ h => absurd h List.not_mem_nil,
      fun _ h => absurd h List.not_mem_nil,
      ⟨fun txId actions h => (nomatch h), List.nodup_nil, rfl, Nat.zero_le _⟩, rfl⟩
  refine keeps_bind (keeps_foldlM (Between.refl s₀) hstart ?_) ?_
  · intro front row rest st s hrows hb h
    exact h.step hb hrows
  · intro st s hb h
    have hdone : Between s₀ (commit s st.batch) :=
      commit_keeps (fun o ho s hs => hs.apply (h.writes o ho)) hb
    refine keeps_change hb (keeps_pure hdone ⟨⟨fun k => ?_, fun key => ?_, hdone.others⟩, h.rewrites, ?_⟩)
    · cases hget : (s₀ .ledgerEvents)[k]? with
      | none =>
          rcases hdone.events k with hsame | hmapped
          · rw [hsame, hget]
            rfl
          · rw [hmapped, hget]
      | some record => exact (h.settled (k, record) (mem_rows.mpr hget)).event
    · constructor
      · exact hdone.byContract key
      · rintro (hold | ⟨k, record, hget, hcontract, address, haddress, rfl⟩)
        · exact hdone.filed key hold
        · exact (h.settled (k, record) (mem_rows.mpr hget)).filed hcontract address haddress
    · have hcard := List.toFinset_card_of_nodup h.cached.nodup
      rw [h.cached.keys, List.length_map] at hcard
      rw [contractTxIds, hcard]
      exact h.cached.limit

theorem Between.actionsIn (h : Between s₀ s) (txId : Nat) : actionsIn s txId = actionsIn s₀ txId := by
  rw [EventBackfill.actionsIn]
  rw [h.tx]
  congr 1
  funext actionId
  rw [h.actionAt]

theorem Between.correlatedIn (h : Between s₀ s) : correlatedIn s = correlatedIn s₀ := by
  funext record
  unfold EventBackfill.correlatedIn
  rw [h.actionsIn]

theorem Between.get (h : Between s₀ s) {k : Bytes} {record : EventRecord}
    (hget : (s .ledgerEvents)[k]? = some record) : ∃ old, (s₀ .ledgerEvents)[k]? = some old ∧
      (record = old ∨ record = EventBackfill.correlatedIn s₀ old) := by
  rcases h.events k with hsame | hmapped
  · exact ⟨record, by rw [← hsame, hget], .inl rfl⟩
  · rw [hmapped] at hget
    obtain ⟨old, hold, rfl⟩ := Option.map_eq_some_iff.mp hget
    exact ⟨old, hold, .inr rfl⟩

theorem Between.back (h : Between s₀ s) {k : Bytes} {old : EventRecord}
    (hget : (s₀ .ledgerEvents)[k]? = some old) : ∃ record, (s .ledgerEvents)[k]? = some record ∧
      (record = old ∨ record = EventBackfill.correlatedIn s₀ old) := by
  rcases h.events k with hsame | hmapped
  · exact ⟨old, by rw [hsame, hget], .inl rfl⟩
  · exact ⟨_, by rw [hmapped, hget]; rfl, .inr rfl⟩

theorem Between.filedIn (h : Between s₀ s) (key : Bytes) : FiledIn s key ↔ FiledIn s₀ key := by
  constructor
  · rintro ⟨k, record, hget, hcontract, address, haddress, rfl⟩
    obtain ⟨old, hold, rfl | rfl⟩ := h.get hget
    · exact ⟨k, _, hold, hcontract, address, haddress, rfl⟩
    · rw [correlatedIn_grouping] at hcontract
      rw [correlatedIn_address] at haddress
      exact ⟨k, old, hold, hcontract, address, haddress, rfl⟩
  · rintro ⟨k, old, hget, hcontract, address, haddress, rfl⟩
    obtain ⟨record, hrecord, rfl | rfl⟩ := h.back hget
    · exact ⟨k, _, hrecord, hcontract, address, haddress, rfl⟩
    · refine ⟨k, _, hrecord, ?_, address, ?_, rfl⟩
      · rw [correlatedIn_grouping]
        exact hcontract
      · rw [correlatedIn_address]
        exact haddress

theorem Between.trans (h : Between s₀ s) (h' : Between s s') : Between s₀ s' := by
  refine ⟨fun k => ?_, fun key hkey => h'.filed key (h.filed key hkey), fun key hkey => ?_,
    fun p hp hp' => (h'.others p hp hp').trans (h.others p hp hp')⟩
  · rcases h'.events k with hsame | hmapped
    · rw [hsame]
      exact h.events k
    · rw [hmapped, h.correlatedIn]
      rcases h.events k with hsame | hmapped'
      · rw [hsame]
        exact .inr rfl
      · rw [hmapped', Option.map_map]
        refine .inr (congrArg (fun f => ((s₀ .ledgerEvents)[k]?).map f) ?_)
        funext record
        exact correlatedIn_correlatedIn record
  · rcases h'.byContract key hkey with hkey | hkey
    · exact h.byContract key hkey
    · exact .inr ((h.filedIn key).mp hkey)

theorem Finished.between (h : Finished s₀ s) : Between s₀ s :=
  ⟨fun k => .inr (h.events k), fun key hkey => (h.byContract key).mpr (.inl hkey),
    fun key hkey => (h.byContract key).mp hkey, h.others⟩

theorem Finished.of_between (h : Between s₀ s) (h' : Finished s s') : Finished s₀ s' := by
  refine ⟨fun k => ?_, fun key => ?_, fun p hp hp' => (h'.others p hp hp').trans (h.others p hp hp')⟩
  · rw [h'.events, h.correlatedIn]
    rcases h.events k with hsame | hmapped
    · rw [hsame]
    · rw [hmapped, Option.map_map]
      refine congrArg (fun f => ((s₀ .ledgerEvents)[k]?).map f) ?_
      funext record
      exact correlatedIn_correlatedIn record
  · rw [h'.byContract, h.filedIn]
    constructor
    · rintro (hkey | hkey)
      · exact h.byContract key hkey
      · exact .inr hkey
    · rintro (hkey | hkey)
      · exact .inl (h.filed key hkey)
      · exact .inr hkey

theorem mem_contractTxIds {txId : Nat} : txId ∈ contractTxIds s ↔ ∃ (k : Bytes) (record : EventRecord),
    (s .ledgerEvents)[k]? = some record ∧ record.event.grouping = .contract ∧ record.txId = txId := by
  simp only [contractTxIds, txIdsOf, List.mem_toFinset, List.mem_map, List.mem_filter, Prod.exists,
    mem_rows, decide_eq_true_eq, and_assoc]

theorem Between.contractTxIds (h : Between s₀ s) : contractTxIds s = contractTxIds s₀ := by
  ext txId
  rw [mem_contractTxIds, mem_contractTxIds]
  constructor
  · rintro ⟨k, record, hget, hcontract, rfl⟩
    obtain ⟨old, hold, rfl | rfl⟩ := h.get hget
    · exact ⟨k, _, hold, hcontract, rfl⟩
    · rw [correlatedIn_grouping] at hcontract
      exact ⟨k, old, hold, hcontract, (correlatedIn_txId old).symm⟩
  · rintro ⟨k, old, hget, hcontract, rfl⟩
    obtain ⟨record, hrecord, rfl | rfl⟩ := h.back hget
    · exact ⟨k, _, hrecord, hcontract, rfl⟩
    · exact ⟨k, _, hrecord, (correlatedIn_grouping old).trans hcontract, correlatedIn_txId old⟩

theorem Between.integrity (h : Between s₀ s) (hi : Integrity s₀) : Integrity s := by
  refine ⟨fun k record hget => ?_, fun k record hget hcontract => ?_, fun k record hget hcontract => ?_⟩
  · obtain ⟨old, hold, -⟩ := h.get hget
    exact hi.keys k old hold
  · obtain ⟨old, hold, rfl | rfl⟩ := h.get hget
    · exact hi.addresses k _ hold hcontract
    · rw [correlatedIn_grouping] at hcontract
      rw [correlatedIn_address]
      exact hi.addresses k old hold hcontract
  · simp only [h.tx, h.actionAt]
    obtain ⟨old, hold, rfl | rfl⟩ := h.get hget
    · exact hi.txs k _ hold hcontract
    · rw [correlatedIn_grouping] at hcontract
      rw [correlatedIn_txId]
      exact hi.txs k old hold hcontract

/-- A run, on whatever earlier runs that were cut off have left. -/
theorem backfill_keeps (h : Between s₀ s) : Keeps (Between s₀) (Stops s₀)
    (fun counts s' => Finished s₀ s' ∧ counts.recordsRewritten = staleRows s ∧
      (contractTxIds s₀).card ≤ cacheLimit) backfillContractEvents s := by
  refine (backfill_keeps_start s).mono (fun s' hb => h.trans hb) ?_ ?_
  · intro e he hintegrity
    obtain ⟨hpanic, hfull⟩ := he (h.integrity hintegrity)
    rw [h.contractTxIds] at hfull
    exact ⟨hpanic, hfull⟩
  · rintro counts s' ⟨hfinished, hcount, hlimit⟩
    rw [h.contractTxIds] at hlimit
    exact ⟨hfinished.of_between h, hcount, hlimit⟩

end Runs

section Limit

theorem completes_of_few {s t : Store} (h : Integrity s) (hb : Between s t)
    (hlimit : (contractTxIds s).card ≤ cacheLimit) :
    ∃ counts s', backfillContractEvents.run t = (.ok counts, s') := by
  cases hrun : backfillContractEvents.run t with
  | mk result s' =>
      cases result with
      | ok counts => exact ⟨counts, s', rfl⟩
      | error e =>
          exact absurd hlimit (Nat.not_le.mpr (((backfill_keeps hb).run_error hrun).2 h).2)

/-- A run over a store with referential integrity completes when its contract
events belong to at most 10,000 transactions, and panics when they belong to
more, however often it is started again. -/
theorem backfill_completes_iff {s : Store} (h : Integrity s) :
    ∀ t, Attempts backfillContractEvents s t →
      ((∃ counts s', backfillContractEvents.run t = (.ok counts, s')) ↔
        (contractTxIds s).card ≤ 10000) ∧
      ∀ e s', backfillContractEvents.run t = (.error e, s') → e = .panic := by
  intro t ht
  have hb := attempts_keep (I := Between s) (fun _ hs => backfill_keeps hs) (Between.refl s) ht
  have hkeeps := backfill_keeps hb
  refine ⟨⟨?_, completes_of_few h hb⟩, ?_⟩
  · rintro ⟨counts, s', hrun⟩
    exact (hkeeps.run_ok hrun).2.2.2
  · intro e s' hrun
    exact ((hkeeps.run_error hrun).2 h).1

def numbered {V : Type} (n : Nat) (f : Nat → V) : Table V :=
  (List.range n).foldl (fun t i => t.insert (be 8 i) (f i)) ∅

theorem numbered_indexed {V : Type} {n : Nat} (h : n ≤ 2 ^ 64) (f : Nat → V) :
    Indexed (numbered n f) ((List.range n).map f) := by
  induction n with
  | zero => exact Indexed.empty
  | succ n ih =>
      have hlen : ((List.range n).map f).length = n := by
        rw [List.length_map, List.length_range]
      have hpush := (ih (Nat.le_of_succ_le h)).push (f n) (by rw [hlen]; exact h)
      rw [hlen] at hpush
      rw [numbered, List.range_succ, List.foldl_append, List.map_append]
      exact hpush

def pauseAction (txId : Nat) : ContractActionRecord where
  address := [7]
  attributes := .call "pause"
  stateHash := none
  balances := []
  txId
  blockHeight := txId

def pauseTx (txId : Nat) : TxRecord where
  hash := ByteArr.filled 32 0
  blockHeight := txId
  indexInBlock := 0
  variant := .regular
  result := .success
  paidFees := 0
  estimatedFees := 0
  identifiers := []
  contractActionIds := [txId]
  firstEventId := txId
  eventCount := 1
  createdUtxos := []
  spentUtxos := []
  raw := []

def pauseEvent (txId : Nat) : EventRecord where
  event := ⟨.contract, [], .contractPaused 1 (utf8 "pause"), none, some [7]⟩
  txId
  blockHeight := txId

/-- Transactions that call one contract and emit one event each. -/
def pauses (n : Nat) : Store
  | .txs => numbered n pauseTx
  | .contractActions => numbered n pauseAction
  | .ledgerEvents => numbered n pauseEvent
  | _ => ∅

variable {n : Nat} (h : n ≤ 2 ^ 64)

include h

theorem numbered_get {V : Type} {f : Nat → V} {k : Bytes} {v : V} :
    (numbered n f)[k]? = some v ↔ ∃ i, i < n ∧ v = f i ∧ k = be 8 i := by
  rw [(numbered_indexed h f).get_iff]
  constructor
  · rintro ⟨i, hget, rfl⟩
    rw [List.getElem?_map, Option.map_eq_some_iff] at hget
    obtain ⟨j, hj, rfl⟩ := hget
    obtain ⟨hlt, rfl⟩ := List.getElem?_eq_some_iff.mp hj
    rw [List.length_range] at hlt
    exact ⟨i, hlt, by rw [List.getElem_range], rfl⟩
  · rintro ⟨i, hlt, rfl, rfl⟩
    exact ⟨i, by rw [List.getElem?_map, List.getElem?_range hlt]; rfl, rfl⟩

theorem pauses_event {k : Bytes} {record : EventRecord} :
    (pauses n .ledgerEvents)[k]? = some record ↔ ∃ i, i < n ∧ record = pauseEvent i ∧ k = be 8 i :=
  numbered_get h

theorem pauses_integrity : Integrity (pauses n) := by
  refine ⟨?_, ?_, ?_⟩
  · intro k record hget
    obtain ⟨i, -, -, rfl⟩ := (pauses_event h).mp hget
    exact be_length 8 i
  · intro k record hget _
    obtain ⟨i, -, rfl, -⟩ := (pauses_event h).mp hget
    exact Option.some_ne_none _
  · intro k record hget _
    obtain ⟨i, hlt, rfl, -⟩ := (pauses_event h).mp hget
    have htx : tx (pauses n) i = some (pauseTx i) := (numbered_get h).mpr ⟨i, hlt, rfl, rfl⟩
    have haction : actionAt (pauses n) i = some (pauseAction i) :=
      (numbered_get h).mpr ⟨i, hlt, rfl, rfl⟩
    refine ⟨pauseTx i, htx, fun actionId hid => ?_⟩
    obtain rfl := List.mem_singleton.mp hid
    rw [haction]
    exact Option.some_ne_none _

theorem contractTxIds_pauses : contractTxIds (pauses n) = Finset.range n := by
  ext txId
  rw [mem_contractTxIds, Finset.mem_range]
  constructor
  · rintro ⟨k, record, hget, -, rfl⟩
    obtain ⟨i, hlt, rfl, -⟩ := (pauses_event h).mp hget
    exact hlt
  · intro hlt
    exact ⟨be 8 txId, pauseEvent txId, (pauses_event h).mpr ⟨txId, hlt, rfl, rfl⟩, rfl, rfl⟩

omit h

theorem backfill_completes_iff_few : Integrity (pauses 3) ∧
    ∃ counts s', backfillContractEvents.run (pauses 3) = (.ok counts, s') := by
  have hintegrity := pauses_integrity (show 3 ≤ 2 ^ 64 by decide)
  refine ⟨hintegrity, ((backfill_completes_iff hintegrity _ .start).1).mpr ?_⟩
  rw [contractTxIds_pauses (by decide), Finset.card_range]
  decide

/-- With events of 10,001 transactions it panics, on a store with referential integrity. -/
theorem backfill_panics : ¬ ∀ s, Integrity s →
    ∃ counts s', backfillContractEvents.run s = (.ok counts, s') := by
  intro hall
  have hbound : 10001 ≤ 2 ^ 64 := by decide
  obtain ⟨counts, s', hrun⟩ := hall (pauses 10001) (pauses_integrity hbound)
  have hlimit := ((backfill_keeps (Between.refl (pauses 10001))).run_ok hrun).2.2.2
  rw [contractTxIds_pauses hbound, Finset.card_range] at hlimit
  exact absurd hlimit (by decide)

end Limit

end Nightfrost.EventBackfill
