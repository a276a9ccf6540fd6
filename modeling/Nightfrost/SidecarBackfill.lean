import Nightfrost.Offline

namespace Nightfrost.SidecarBackfill

open ByteOrder Tables Partitions Domain Schema WriteBlock ExceptFold EntityLog BlockStep BlockRun Scripts
  DenseIds Offline

structure WalletSidecarCounts where
  transactionsIndexed : Nat
  dustEventsIndexed : Nat
  deriving DecidableEq

structure SidecarScan where
  zswapIndex : Nat
  batch : StoreBatch
  pending : Nat
  counts : WalletSidecarCounts

def isOutput : LedgerEventAttributes → Bool
  | .zswapOutput => true
  | _ => false

def isZswapOutput (record : EventRecord) : Bool := isOutput record.event.attributes

/-- The running index is anchored backwards from the tip, or to the last record. -/
def firstZswapIndex (currentZswapEnd txProgress : Nat) : Job Nat :=
  if txProgress = 0 then do
    let entries ← look (fun s => (s .ledgerEvents).toList)
    let outputs := entries.countP (fun entry => isZswapOutput entry.2)
    if outputs ≤ currentZswapEnd then pure (currentZswapEnd - outputs)
    else .fail (.error "stored Zswap events exceed the current first-free index")
  else do
    match ← look (fun s => (s .walletTxIndices)[be 8 (txProgress - 1)]?) with
    | none => .fail (.error "wallet transaction index progress has no preceding record")
    | some record => pure record.zswapEndIndex

def SidecarScan.commitFull (st : SidecarScan) : Job SidecarScan :=
  if st.pending ≥ commitEvery then do
    commitBatch st.batch
    pure { st with batch := [], pending := 0 }
  else pure st

def countZswapOutput (zswapIndex eventId : Nat) : Job Nat := do
  match ← look (eventAt · eventId) with
  | none => .fail (.error ("missing event " ++ toString eventId))
  | some event => pure (if isZswapOutput event then zswapIndex + 1 else zswapIndex)

def SidecarScan.addTransaction (st : SidecarScan) (txId zswapIndex protocolVersion : Nat) :
    SidecarScan where
  zswapIndex
  batch := st.batch ++ [.put .walletTxIndices (be 8 txId) ⟨st.zswapIndex, zswapIndex, protocolVersion⟩,
    .put .metadata walletTxIndexedThroughKey (.u64 (txId + 1))]
  pending := st.pending + 1
  counts := { st.counts with transactionsIndexed := st.counts.transactionsIndexed + 1 }

def indexTransaction (st : SidecarScan) (txId : Nat) : Job SidecarScan := do
  match ← look (tx · txId) with
  | none => .fail (.error ("missing transaction " ++ toString txId))
  | some tx =>
      match ← look (Schema.block · tx.blockHeight) with
      | none => .fail (.error ("missing block " ++ toString tx.blockHeight))
      | some block => do
          let zswapIndex ← (List.range' tx.firstEventId tx.eventCount).foldlM countZswapOutput
            st.zswapIndex
          (st.addTransaction txId zswapIndex block.protocolVersion).commitFull

def SidecarScan.addEvent (st : SidecarScan) (eventId : Nat) (record : EventRecord) : SidecarScan :=
  let st := if record.event.grouping = .dust then
    { st with
      batch := st.batch ++ [.put .walletDustEvents (be 8 eventId) ()]
      counts := { st.counts with dustEventsIndexed := st.counts.dustEventsIndexed + 1 } }
    else st
  { st with
    batch := st.batch ++ [.put .metadata walletDustIndexedThroughKey (.u64 (eventId + 1))]
    pending := st.pending + 1 }

def indexEvent (st : SidecarScan) (eventId : Nat) : Job SidecarScan := do
  match ← look (eventAt · eventId) with
  | none => .fail (.error ("missing event " ++ toString eventId))
  | some record => (st.addEvent eventId record).commitFull

def backfillWalletSidecars (currentZswapEnd : Nat) : Job WalletSidecarCounts := do
  let targetTx ← look (nextId · nextTxIdKey)
  let targetEvent ← look (nextId · nextEventIdKey)
  let txProgress ← look (nextId · walletTxIndexedThroughKey)
  let eventProgress ← look (nextId · walletDustIndexedThroughKey)
  let zswapIndex ← firstZswapIndex currentZswapEnd txProgress
  let st ← (List.range' txProgress (targetTx - txProgress)).foldlM indexTransaction
    ⟨zswapIndex, [], 0, ⟨0, 0⟩⟩
  if st.zswapIndex ≠ currentZswapEnd then
    .fail (.error ("wallet Zswap index ended at " ++ toString st.zswapIndex ++
      ", ledger state is at " ++ toString currentZswapEnd))
  else do
    let st ← (List.range' eventProgress (targetEvent - eventProgress)).foldlM indexEvent st
    commitBatch st.batch
    pure st.counts

section Chains

def outputsOf (events : List EventRecord) (ids : List Nat) : Nat :=
  ids.countP (fun id => (events[id]?).any isZswapOutput)

def eventIds (tx : TxRecord) : List Nat := List.range' tx.firstEventId tx.eventCount

/-- A store whose transactions and events have dense ids, with the transactions
as the ledger applied them: each moves the first-free index by its outputs, and
nothing moves it in between. -/
structure Chain (s : Store) (txs : List TxRecord) (events : List EventRecord)
    (applied : List AppliedTransaction) (tipZswapEnd : Nat) : Prop where
  txRows : Indexed (s .txs) txs
  eventRows : Indexed (s .ledgerEvents) events
  nextTxId : nextId s nextTxIdKey = txs.length
  nextEventId : nextId s nextEventIdKey = events.length
  eventRanges : txs.flatMap eventIds = List.range events.length
  sameLength : applied.length = txs.length
  version : ∀ (i : Nat) tx a, txs[i]? = some tx → applied[i]? = some a → ∃ b,
    Schema.block s tx.blockHeight = some b ∧ b.protocolVersion = a.protocolVersion
  advances : ∀ (i : Nat) tx a, txs[i]? = some tx → applied[i]? = some a →
    a.zswapEndIndex = a.zswapStartIndex + outputsOf events (eventIds tx)
  joined : ∀ (i : Nat) a b, applied[i]? = some a → applied[i + 1]? = some b →
    b.zswapStartIndex = a.zswapEndIndex
  tip : ∀ a, applied.getLast? = some a → tipZswapEnd = a.zswapEndIndex

/-- The sidecars hold what the pipeline writes for the first transactions and events. -/
structure Sidecars (s₀ s : Store) (events : List EventRecord) (applied : List AppliedTransaction)
    (p q : Nat) : Prop where
  txBound : p ≤ applied.length
  eventBound : q ≤ events.length
  txIndices : Indexed (s .walletTxIndices) ((applied.take p).map walletTxIndex)
  dustEvents : IndexOf (s .walletDustEvents) (events.take q) dustEventKeys
  txProgress : nextId s walletTxIndexedThroughKey = p
  eventProgress : nextId s walletDustIndexedThroughKey = q
  metadata : ∀ k, k ≠ walletTxIndexedThroughKey → k ≠ walletDustIndexedThroughKey →
    (s .metadata)[k]? = (s₀ .metadata)[k]?
  others : ∀ part : Part, part ≠ .metadata → part ≠ .walletTxIndices → part ≠ .walletDustEvents →
    s part = s₀ part

variable {s₀ s : Store} {txs : List TxRecord} {events : List EventRecord}
  {applied : List AppliedTransaction} {tipZswapEnd p q : Nat}

def outputsBefore (txs : List TxRecord) (events : List EventRecord) (i : Nat) : Nat :=
  outputsOf events ((txs.take i).flatMap eventIds)

theorem outputsBefore_succ {i : Nat} {tx : TxRecord} (h : txs[i]? = some tx) :
    outputsBefore txs events (i + 1) = outputsBefore txs events i + outputsOf events (eventIds tx) := by
  unfold outputsBefore outputsOf
  rw [List.take_add_one, h, List.flatMap_append, List.countP_append]
  simp

theorem Chain.start_eq (h : Chain s₀ txs events applied tipZswapEnd) {i : Nat}
    {first a : AppliedTransaction} (hfirst : applied[0]? = some first) (ha : applied[i]? = some a) :
    a.zswapStartIndex = first.zswapStartIndex + outputsBefore txs events i := by
  induction i generalizing a with
  | zero =>
      obtain rfl := Option.some.inj (hfirst.symm.trans ha)
      rfl
  | succ i ih =>
      have hlt := (List.getElem?_eq_some_iff.mp ha).1
      have hprev := List.getElem?_eq_getElem (Nat.lt_of_succ_lt hlt)
      have htx := List.getElem?_eq_getElem (show i < txs.length by rw [← h.sameLength]; omega)
      rw [h.joined i _ a hprev ha, h.advances i _ _ htx hprev, ih hprev, outputsBefore_succ htx,
        Nat.add_assoc]

theorem Chain.outputs (h : Chain s₀ txs events applied tipZswapEnd) :
    outputsBefore txs events txs.length = events.countP isZswapOutput := by
  rw [outputsBefore, outputsOf]
  rw [List.take_length, h.eventRanges]
  calc (List.range events.length).countP (fun id => (events[id]?).any isZswapOutput)
      = ((List.range events.length).map (fun id => events[id]?)).countP (Option.any isZswapOutput) := by
        rw [List.countP_map]
        rfl
    _ = events.countP isZswapOutput := by
        rw [map_getElem?_range, List.countP_map]
        rfl

theorem Chain.tip_eq (h : Chain s₀ txs events applied tipZswapEnd) {first : AppliedTransaction}
    (hfirst : applied[0]? = some first) :
    tipZswapEnd = first.zswapStartIndex + events.countP isZswapOutput := by
  have hpos := (List.getElem?_eq_some_iff.mp hfirst).1
  have hlast := List.getElem?_eq_getElem (show applied.length - 1 < applied.length by omega)
  have hlength := h.sameLength
  have htx := List.getElem?_eq_getElem (show applied.length - 1 < txs.length by omega)
  rw [h.tip _ (by rw [List.getLast?_eq_getElem?]; exact hlast), h.advances _ _ _ htx hlast,
    h.start_eq hfirst hlast, Nat.add_assoc, ← outputsBefore_succ htx, ← h.outputs]
  rw [show applied.length - 1 + 1 = txs.length by omega]

/-- The running index before a transaction, or at the tip. -/
def IndexAt (applied : List AppliedTransaction) (tipZswapEnd i zswapIndex : Nat) : Prop :=
  (∀ a, applied[i]? = some a → zswapIndex = a.zswapStartIndex) ∧
    (i = applied.length → zswapIndex = tipZswapEnd)

theorem Chain.indexAt_succ (h : Chain s₀ txs events applied tipZswapEnd) {i : Nat}
    {a : AppliedTransaction} (ha : applied[i]? = some a) :
    IndexAt applied tipZswapEnd (i + 1) a.zswapEndIndex := by
  constructor
  · intro b hb
    exact (h.joined i a b ha hb).symm
  · intro hi
    refine (h.tip a ?_).symm
    rw [List.getLast?_eq_getElem?, ← hi]
    exact ha

end Chains

section Steps

variable {s₀ s : Store} {txs : List TxRecord} {events : List EventRecord}
  {applied : List AppliedTransaction} {tipZswapEnd p q : Nat}

theorem Sidecars.tx (h : Sidecars s₀ s events applied p q) (txId : Nat) : tx s txId = tx s₀ txId := by
  unfold Schema.tx
  rw [h.others .txs (by decide) (by decide) (by decide)]

theorem Sidecars.block (h : Sidecars s₀ s events applied p q) (height : Nat) :
    Schema.block s height = Schema.block s₀ height := by
  unfold Schema.block
  rw [h.others .blocks (by decide) (by decide) (by decide)]

theorem Sidecars.eventAt (h : Sidecars s₀ s events applied p q) (eventId : Nat) :
    eventAt s eventId = eventAt s₀ eventId := by
  unfold DenseIds.eventAt
  rw [h.others .ledgerEvents (by decide) (by decide) (by decide)]

theorem Sidecars.nextId (h : Sidecars s₀ s events applied p q) {key : Bytes}
    (htx : key ≠ walletTxIndexedThroughKey) (hevent : key ≠ walletDustIndexedThroughKey) :
    nextId s key = nextId s₀ key := by
  unfold Schema.nextId metaU64
  rw [h.metadata key htx hevent]

theorem nextId_put (s : Store) (k : Bytes) (n : Nat) (key : Bytes) :
    nextId ((Op.put .metadata k (.u64 n)).apply s) key = if k = key then n else nextId s key := by
  rw [Schema.nextId, metaU64_put]
  by_cases hk : k = key
  · rw [if_pos hk, if_pos hk]
    rfl
  · rw [if_neg hk, if_neg hk]
    rfl

theorem Sidecars.addTransaction (h : Sidecars s₀ s events applied p q) (hb : applied.length ≤ 2 ^ 64)
    {a : AppliedTransaction} (ha : applied[p]? = some a) :
    Sidecars s₀ (commit s [.put .walletTxIndices (be 8 p) (walletTxIndex a),
      .put .metadata walletTxIndexedThroughKey (.u64 (p + 1))]) events applied (p + 1) q := by
  have hlt := (List.getElem?_eq_some_iff.mp ha).1
  have htake : ((applied.take (p + 1)).map walletTxIndex) =
      (applied.take p).map walletTxIndex ++ [walletTxIndex a] := by
    rw [List.take_add_one, ha, List.map_append]
    rfl
  have hlen : ((applied.take p).map walletTxIndex).length = p := by
    rw [List.length_map, List.length_take]
    omega
  rw [commit_cons, commit_singleton]
  refine ⟨hlt, h.eventBound, ?_, ?_, ?_, ?_, fun k hk hk' => ?_, fun part hm ht hd => ?_⟩
  · rw [apply_put_other _ (by decide), apply_put_same, htake]
    have hpush := h.txIndices.push (walletTxIndex a) (by rw [hlen]; omega)
    rw [hlen] at hpush
    exact hpush
  · rw [apply_put_other _ (by decide), apply_put_other _ (by decide)]
    exact h.dustEvents
  · rw [nextId_put, if_pos rfl]
  · rw [nextId_put, if_neg (by decide), ← h.eventProgress]
    exact congrArg (Option.getD · 0) (metaU64_other (apply_put_other _ (by decide) _ _) _)
  · rw [apply_put_same, get_insert, if_neg (fun he => hk he.symm), apply_put_other _ (by decide)]
    exact h.metadata k hk hk'
  · rw [apply_put_other _ hm, apply_put_other _ ht]
    exact h.others part hm ht hd

theorem Sidecars.addEvent (h : Sidecars s₀ s events applied p q) {record : EventRecord}
    (hrecord : events[q]? = some record) :
    Sidecars s₀ (commit s ((if record.event.grouping = .dust then
        [.put .walletDustEvents (be 8 q) ()] else []) ++
      [.put .metadata walletDustIndexedThroughKey (.u64 (q + 1))])) events applied p (q + 1) := by
  have hlt := (List.getElem?_eq_some_iff.mp hrecord).1
  have htake : events.take (q + 1) = events.take q ++ [record] := by
    rw [List.take_add_one, hrecord]
    rfl
  have hlen : (events.take q).length = q := by
    rw [List.length_take]
    omega
  have hother : ∀ part : Part, part ≠ .walletDustEvents → commit s (if record.event.grouping = .dust then
      [.put .walletDustEvents (be 8 q) ()] else []) part = s part := by
    intro part hpart
    split
    · rw [commit_singleton, apply_put_other _ hpart]
    · rfl
  rw [commit_append, commit_singleton]
  refine ⟨h.txBound, hlt, ?_, ?_, ?_, ?_, fun k hk hk' => ?_, fun part hm ht hd => ?_⟩
  · rw [apply_put_other _ (by decide), hother _ (by decide)]
    exact h.txIndices
  · rw [htake]
    refine h.dustEvents.push fun k => ?_
    rw [apply_put_other _ (by decide), hlen, dustEventKeys]
    split
    · rw [commit_singleton, apply_put_same, Tables.mem_insert, List.mem_singleton, or_comm,
        eq_comm (a := k)]
    · rw [commit_nil]
      simp
  · rw [nextId_put, if_neg (by decide), Schema.nextId, metaU64_other (hother _ (by decide))]
    exact h.txProgress
  · rw [nextId_put, if_pos rfl]
  · rw [apply_put_same, get_insert, if_neg (fun he => hk' he.symm), hother _ (by decide)]
    exact h.metadata k hk hk'
  · rw [apply_put_other _ hm, hother _ hd]
    exact h.others part hm ht hd

end Steps

section Loops

variable {s₀ s : Store} {txs : List TxRecord} {events : List EventRecord}
  {applied : List AppliedTransaction} {tipZswapEnd p q : Nat} {st : SidecarScan}

/-- Some prefix of the sidecars is written. -/
def Begun (s₀ : Store) (events : List EventRecord) (applied : List AppliedTransaction) (s : Store) :
    Prop :=
  ∃ p q, Sidecars s₀ s events applied p q

theorem range'_split {start len b : Nat} {front rest : List Nat}
    (h : List.range' start len = front ++ b :: rest) : b = start + front.length ∧ front.length < len := by
  have hget : (List.range' start len)[front.length]? = some b := by
    rw [h, List.getElem?_append_right (Nat.le_refl _), Nat.sub_self]
    rfl
  obtain ⟨hlt, hb⟩ := List.getElem?_eq_some_iff.mp hget
  rw [List.length_range'] at hlt
  rw [List.getElem_range', Nat.one_mul] at hb
  exact ⟨hb.symm, hlt⟩

theorem commitFull_keeps {E : Fault → Prop} {J : SidecarScan → Store → Prop}
    (hb : Begun s₀ events applied s) (hs : Sidecars s₀ (commit s st.batch) events applied p q)
    (hj : J st s) (hcommitted : J { st with batch := [], pending := 0 } (commit s st.batch)) :
    Keeps (Begun s₀ events applied) E J st.commitFull s := by
  rw [SidecarScan.commitFull]
  split
  · exact keeps_change hb (keeps_pure ⟨p, q, hs⟩ hcommitted)
  · exact keeps_pure hb hj

theorem Chain.event (h : Chain s₀ txs events applied tipZswapEnd) {eventId : Nat} {record : EventRecord}
    (hrecord : events[eventId]? = some record) : eventAt s₀ eventId = some record :=
  h.eventRows.get_iff.mpr ⟨eventId, hrecord, rfl⟩

theorem countOutputs_keeps (h : Chain s₀ txs events applied tipZswapEnd)
    (hb : Begun s₀ events applied s) {tx : TxRecord} (htx : tx ∈ txs) (zswapIndex : Nat) :
    Keeps (Begun s₀ events applied) (fun _ => False)
      (fun z s' => s' = s ∧ z = zswapIndex + outputsOf events (eventIds tx))
      ((eventIds tx).foldlM countZswapOutput zswapIndex) s := by
  have hstart : s = s ∧ zswapIndex = zswapIndex + outputsOf events [] := ⟨rfl, rfl⟩
  refine keeps_foldlM (J := fun front z s' => s' = s ∧ z = zswapIndex + outputsOf events front) hb
    hstart ?_
  rintro front eventId rest z s' hsplit hb' ⟨rfl, rfl⟩
  have hmem : eventId ∈ List.range events.length := by
    rw [← h.eventRanges, List.mem_flatMap]
    exact ⟨tx, htx, by rw [hsplit]; exact List.mem_append_right _ List.mem_cons_self⟩
  have hrecord := List.getElem?_eq_getElem (List.mem_range.mp hmem)
  have hbegun := hb'
  obtain ⟨p, q, hs⟩ := hbegun
  apply keeps_look hb'
  rw [hs.eventAt, h.event hrecord]
  refine keeps_pure hb' ⟨rfl, ?_⟩
  unfold outputsOf
  rw [List.countP_append, List.countP_singleton, hrecord, Option.any_some]
  split <;> rfl

theorem indexTransaction_keeps (h : Chain s₀ txs events applied tipZswapEnd)
    (hb : Begun s₀ events applied s) (hs : Sidecars s₀ (commit s st.batch) events applied p q)
    (hindex : IndexAt applied tipZswapEnd p st.zswapIndex) (hlt : p < applied.length) :
    Keeps (Begun s₀ events applied) (fun _ => False)
      (fun st' s' => Sidecars s₀ (commit s' st'.batch) events applied (p + 1) q ∧
        IndexAt applied tipZswapEnd (p + 1) st'.zswapIndex)
      (indexTransaction st p) s := by
  have ha := List.getElem?_eq_getElem hlt
  have hlt' : p < txs.length := by
    rw [← h.sameLength]
    exact hlt
  have htx := List.getElem?_eq_getElem hlt'
  have hbound := h.txRows.bound
  have hread : Schema.tx s₀ p = some txs[p] := h.txRows.get_iff.mpr ⟨p, htx, rfl⟩
  obtain ⟨b, hblock, hversion⟩ := h.version p _ _ htx ha
  have hbegun := hb
  obtain ⟨p', q', hnow⟩ := hbegun
  apply keeps_look hb
  rw [hnow.tx, hread]
  apply keeps_look hb
  rw [hnow.block, hblock]
  refine keeps_bind (countOutputs_keeps h hb (List.mem_of_getElem? htx) st.zswapIndex) ?_
  rintro z s' hb' ⟨rfl, rfl⟩
  have hend : st.zswapIndex + outputsOf events (eventIds txs[p]) = applied[p].zswapEndIndex := by
    rw [h.advances p _ _ htx ha, hindex.1 _ ha]
  have hrow : (⟨st.zswapIndex, applied[p].zswapEndIndex, b.protocolVersion⟩ : WalletTxIndexRecord) =
      walletTxIndex applied[p] := by
    rw [hindex.1 _ ha, hversion]
    rfl
  have hnext := hs.addTransaction (by rw [h.sameLength]; exact hbound) ha
  have hadded : Sidecars s₀ (commit s' (st.addTransaction p applied[p].zswapEndIndex
      b.protocolVersion).batch) events applied (p + 1) q := by
    show Sidecars s₀ (commit s' (st.batch ++ [.put .walletTxIndices (be 8 p) ⟨_, _, _⟩, _])) _ _ _ _
    rw [hrow, commit_append]
    exact hnext
  rw [hend]
  exact commitFull_keeps hb' hadded ⟨hadded, h.indexAt_succ ha⟩ ⟨hadded, h.indexAt_succ ha⟩

theorem addEvent_batch (st : SidecarScan) (eventId : Nat) (record : EventRecord) :
    (st.addEvent eventId record).batch = st.batch ++ ((if record.event.grouping = .dust then
        [.put .walletDustEvents (be 8 eventId) ()] else []) ++
      [.put .metadata walletDustIndexedThroughKey (.u64 (eventId + 1))]) := by
  rw [SidecarScan.addEvent]
  dsimp only
  split
  · exact List.append_assoc _ _ _
  · rfl

theorem indexEvent_keeps (h : Chain s₀ txs events applied tipZswapEnd)
    (hb : Begun s₀ events applied s) (hs : Sidecars s₀ (commit s st.batch) events applied p q)
    (hlt : q < events.length) :
    Keeps (Begun s₀ events applied) (fun _ => False)
      (fun st' s' => Sidecars s₀ (commit s' st'.batch) events applied p (q + 1)) (indexEvent st q) s := by
  have hrecord := List.getElem?_eq_getElem hlt
  have hbegun := hb
  obtain ⟨p', q', hnow⟩ := hbegun
  apply keeps_look hb
  rw [hnow.eventAt, h.event hrecord]
  have hadded : Sidecars s₀ (commit s (st.addEvent q events[q]).batch) events applied p (q + 1) := by
    rw [addEvent_batch, commit_append]
    exact hs.addEvent hrecord
  exact commitFull_keeps hb hadded hadded hadded

theorem firstZswapIndex_keeps (h : Chain s₀ txs events applied tipZswapEnd)
    (hs : Sidecars s₀ s events applied p q) :
    Keeps (Begun s₀ events applied) (fun _ => False)
      (fun z s' => s' = s ∧ IndexAt applied tipZswapEnd p z) (firstZswapIndex tipZswapEnd p) s := by
  have hb : Begun s₀ events applied s := ⟨p, q, hs⟩
  rw [firstZswapIndex]
  split
  · rename_i hzero
    subst hzero
    have hrows : (s .ledgerEvents).toList.countP (fun entry => isZswapOutput entry.2) =
        events.countP isZswapOutput := by
      have hfst : events.zipIdx.map Prod.fst = events := List.zipIdx_map_fst 0 events
      rw [hs.others .ledgerEvents (by decide) (by decide) (by decide), h.eventRows.rows,
        List.countP_map]
      calc events.zipIdx.countP (isZswapOutput ∘ Prod.fst)
          = (events.zipIdx.map Prod.fst).countP isZswapOutput := (List.countP_map).symm
        _ = events.countP isZswapOutput := by rw [hfst]
    apply keeps_look hb
    dsimp only
    rw [hrows]
    have hle : events.countP isZswapOutput ≤ tipZswapEnd ∧
        IndexAt applied tipZswapEnd 0 (tipZswapEnd - events.countP isZswapOutput) := by
      cases hfirst : applied[0]? with
      | some first =>
          have htip := h.tip_eq hfirst
          refine ⟨by omega, fun a ha => ?_, fun hlen => ?_⟩
          · obtain rfl := Option.some.inj (hfirst.symm.trans ha)
            omega
          · rw [List.getElem?_eq_none (by omega)] at hfirst
            cases hfirst
      | none =>
          have hnone : events.countP isZswapOutput = 0 := by
            have hlen := List.getElem?_eq_none_iff.mp hfirst
            rw [h.sameLength] at hlen
            rw [← h.outputs, show txs.length = 0 by omega]
            rfl
          refine ⟨by omega, fun a ha => ?_, fun _ => by omega⟩
          rw [hfirst] at ha
          cases ha
    rw [if_pos hle.1]
    exact keeps_pure hb ⟨rfl, hle.2⟩
  · rename_i hpos
    have hlt : p - 1 < applied.length := by
      have := hs.txBound
      omega
    have ha := List.getElem?_eq_getElem hlt
    have hbound := h.txRows.bound
    have hlength := h.sameLength
    have hget : (s .walletTxIndices)[be 8 (p - 1)]? = some (walletTxIndex applied[p - 1]) := by
      refine hs.txIndices.get_iff.mpr ⟨p - 1, ?_, rfl⟩
      rw [List.getElem?_map, List.getElem?_take, if_pos (by omega), ha]
      rfl
    apply keeps_look hb
    rw [hget]
    have hnext := h.indexAt_succ ha
    rw [Nat.sub_add_cancel (Nat.pos_of_ne_zero hpos)] at hnext
    exact keeps_pure hb ⟨rfl, hnext⟩

theorem backfill_keeps (h : Chain s₀ txs events applied tipZswapEnd)
    (hb : Begun s₀ events applied s) :
    Keeps (Begun s₀ events applied) (fun _ => False)
      (fun _ s' => Sidecars s₀ s' events applied applied.length events.length)
      (backfillWalletSidecars tipZswapEnd) s := by
  have hbegun := hb
  obtain ⟨p, q, hs⟩ := hbegun
  have hlength := h.sameLength
  have hp := hs.txBound
  have hq := hs.eventBound
  have htargetTx : nextId s nextTxIdKey = txs.length :=
    (hs.nextId (by decide) (by decide)).trans h.nextTxId
  have htargetEvent : nextId s nextEventIdKey = events.length :=
    (hs.nextId (by decide) (by decide)).trans h.nextEventId
  refine keeps_look hb (keeps_look hb (keeps_look hb (keeps_look hb ?_)))
  rw [htargetTx, htargetEvent, hs.txProgress, hs.eventProgress]
  apply keeps_bind (firstZswapIndex_keeps h hs)
  rintro z s' hb' ⟨rfl, hz⟩
  refine keeps_bind (keeps_foldlM (J := fun (front : List Nat) (st : SidecarScan) s' =>
    Sidecars s₀ (commit s' st.batch) events applied (p + front.length) q ∧
      IndexAt applied tipZswapEnd (p + front.length) st.zswapIndex) hb' ⟨hs, hz⟩ ?_) ?_
  · rintro front txId rest st s hsplit hb ⟨hs, hindex⟩
    obtain ⟨rfl, hlt⟩ := range'_split hsplit
    rw [List.length_append, List.length_singleton, ← Nat.add_assoc]
    exact indexTransaction_keeps h hb hs hindex (by omega)
  · rintro st s hb ⟨hs, hindex⟩
    rw [List.length_range', Nat.add_sub_cancel' (by omega)] at hs hindex
    rw [if_neg (not_not.mpr (hindex.2 hlength.symm))]
    refine keeps_bind (keeps_foldlM (J := fun (front : List Nat) (st : SidecarScan) s' =>
      Sidecars s₀ (commit s' st.batch) events applied txs.length (q + front.length)) hb hs ?_) ?_
    · intro front eventId rest st s hsplit hb hs
      obtain ⟨rfl, hlt⟩ := range'_split hsplit
      rw [List.length_append, List.length_singleton, ← Nat.add_assoc]
      exact indexEvent_keeps h hb hs (by omega)
    · intro st s hb hs
      rw [List.length_range', Nat.add_sub_cancel' hq] at hs
      refine keeps_change hb (keeps_pure ⟨_, _, hs⟩ ?_)
      rw [hlength]
      exact hs

end Loops

section Pipeline

/-- The transactions behind a log, which the ledger applied without a gap. -/
structure Advances (blocks : List DerivedBlock) (tipZswapEnd : Nat) : Prop where
  version : ∀ d ∈ blocks, ∀ a ∈ d.transactions, a.protocolVersion = d.block.protocolVersion.toU32
  advances : ∀ a ∈ blocks.flatMap DerivedBlock.transactions, a.zswapEndIndex =
    a.zswapStartIndex + a.ledgerEvents.countP (fun event => isOutput event.attributes)
  joined : ∀ (i : Nat) a b, (blocks.flatMap DerivedBlock.transactions)[i]? = some a →
    (blocks.flatMap DerivedBlock.transactions)[i + 1]? = some b → b.zswapStartIndex = a.zswapEndIndex
  tip : ∀ a, (blocks.flatMap DerivedBlock.transactions).getLast? = some a →
    tipZswapEnd = a.zswapEndIndex

structure Replayed (blocks : List DerivedBlock) (log : ChainLog) (applied : List AppliedTransaction) :
    Prop where
  shared : Shared log
  length : log.txs.length = applied.length
  indices : log.walletTxIndices = applied.map walletTxIndex
  outputs : ∀ (i : Nat) tx a, log.txs[i]? = some tx → applied[i]? = some a →
    outputsOf log.events (eventIds tx) =
      a.ledgerEvents.countP (fun event => isOutput event.attributes)
  version : ∀ (i : Nat) tx a, log.txs[i]? = some tx → applied[i]? = some a →
    ∃ d ∈ blocks, a ∈ d.transactions ∧ d.block.height = tx.blockHeight

theorem outputsOf_grown {events more : List EventRecord} {ids : List Nat}
    (h : ∀ id ∈ ids, id < events.length) : outputsOf (events ++ more) ids = outputsOf events ids := by
  refine List.countP_congr fun id hid => ?_
  rw [List.getElem?_append_left (h id hid)]

theorem outputsOf_behind (events more : List EventRecord) :
    outputsOf (events ++ more) (List.range' events.length more.length) = more.countP isZswapOutput := by
  induction more generalizing events with
  | nil => rfl
  | cons event more ih =>
      have hhead : (events ++ event :: more)[events.length]? = some event := by
        rw [List.getElem?_append_right (Nat.le_refl _), Nat.sub_self]
        rfl
      have htail := ih (events ++ [event])
      rw [List.length_append, List.append_assoc] at htail
      rw [outputsOf] at htail ⊢
      rw [List.length_cons, List.range'_succ, List.countP_cons, List.countP_cons, hhead]
      exact congrArg₂ (· + ·) htail rfl

theorem Replayed.addTransaction {blocks : List DerivedBlock} {log : ChainLog}
    {applied : List AppliedTransaction} (h : Replayed blocks log applied) {d : DerivedBlock}
    (hd : d ∈ blocks) {a : AppliedTransaction} (ha : a ∈ d.transactions)
    (hcount : a.ledgerEvents.length < 2 ^ 32) (index : Nat) :
    Replayed blocks (log.addTransaction d.block.height (a, index)) (applied ++ [a]) := by
  have hsplit : ∀ {i : Nat} {tx : TxRecord} {b : AppliedTransaction},
      (log.txs ++ [log.newTx d.block.height index a])[i]? = some tx →
      (applied ++ [a])[i]? = some b → (log.txs[i]? = some tx ∧ applied[i]? = some b) ∨
        (tx = log.newTx d.block.height index a ∧ b = a) := by
    intro i tx b htx hb
    rcases Nat.lt_or_ge i applied.length with hlt | hge
    · rw [List.getElem?_append_left (by rw [h.length]; exact hlt)] at htx
      rw [List.getElem?_append_left hlt] at hb
      exact .inl ⟨htx, hb⟩
    · have hi : i = applied.length := by
        have hlt := (List.getElem?_eq_some_iff.mp hb).1
        rw [List.length_append, List.length_singleton] at hlt
        omega
      rw [hi, List.getElem?_concat_length] at hb
      rw [hi, ← h.length, List.getElem?_concat_length] at htx
      exact .inr ⟨(Option.some.inj htx).symm, (Option.some.inj hb).symm⟩
  refine ⟨h.shared.addTransaction index (d.derived a ha) hcount, ?_, ?_, ?_, ?_⟩
  · show (log.txs ++ [_]).length = (applied ++ [a]).length
    rw [List.length_append, List.length_append, h.length]
    rfl
  · show log.walletTxIndices ++ [_] = _
    rw [List.map_append, h.indices]
    rfl
  · intro i tx b htx hb
    rcases hsplit htx hb with ⟨htx, hb⟩ | ⟨rfl, rfl⟩
    · rw [← h.outputs i tx b htx hb]
      refine outputsOf_grown fun id hid => ?_
      rw [← List.mem_range, ← h.shared.events, List.mem_flatMap]
      exact ⟨tx, List.mem_of_getElem? htx, hid⟩
    · have hnew : (newEvents d.block.height log.txs.length log.actions.length b).length =
          b.ledgerEvents.length := List.length_map _
      show outputsOf (log.events ++ newEvents _ _ _ _) (List.range' log.events.length _) = _
      rw [eventCount_newTx log d.block.height index hcount, ← hnew, outputsOf_behind, newEvents,
        List.countP_map]
      rfl
  · intro i tx b htx hb
    rcases hsplit htx hb with ⟨htx, hb⟩ | ⟨rfl, rfl⟩
    · exact h.version i tx b htx hb
    · exact ⟨d, hd, ha, rfl⟩

variable {blocks : List DerivedBlock} {full s : Store} {ids : Counters} {tipZswapEnd : Nat}

theorem logOf_replayed (hcount : ∀ d ∈ blocks, CountsFit d) :
    Replayed blocks (logOf blocks) (blocks.flatMap DerivedBlock.transactions) := by
  apply logOf_replay
  · exact ⟨Shared.empty, rfl, rfl, fun i tx a h => (nomatch h), fun i tx a h => (nomatch h)⟩
  · intro log applied records h
    exact ⟨⟨h.shared.events, h.shared.actions, h.shared.eventOwner, h.shared.actionOwner⟩, h.length,
      h.indices, h.outputs, h.version⟩
  · intro d hd entry hentry log applied h
    have hmem := List.fst_mem_of_mem_zipIdx hentry
    exact h.addTransaction hd hmem ((hcount d hd).2 _ hmem) entry.2

theorem chain_of_run (h : Run blocks full ids) (hc : Consecutive blocks)
    (hcount : ∀ d ∈ blocks, CountsFit d) (ha : Advances blocks tipZswapEnd) :
    Chain full (logOf blocks).txs (logOf blocks).events (blocks.flatMap DerivedBlock.transactions)
      tipZswapEnd := by
  have htables := h.holds.tables
  have hreplayed := logOf_replayed hcount
  obtain ⟨hnextTx, -, hnextEvent⟩ := Run.nextIds h hc
  refine ⟨htables.txs.records, htables.events.records, hnextTx, hnextEvent, hreplayed.shared.events,
    hreplayed.length.symm, ?_, ?_, ha.joined, ha.tip⟩
  · intro i tx a htx happlied
    obtain ⟨d, hd, hmem, hheight⟩ := hreplayed.version i tx a htx happlied
    obtain ⟨j, hj⟩ := List.mem_iff_getElem?.mp hd
    have hpos := hc j d hj
    have hfield := logOf_block_field (f := BlockRecord.protocolVersion)
      (g := fun block => block.protocolVersion.toU32) (fun _ _ _ => rfl) blocks tx.blockHeight
    rw [← hheight, hpos, hj, Option.map_some] at hfield
    obtain ⟨b, hb, hversion⟩ := Option.map_eq_some_iff.mp hfield
    refine ⟨b, ?_, ?_⟩
    · rw [← hheight, hpos]
      exact Indexed.get_of_some (h.cursor hc).records hb
    · rw [hversion, ha.version d hd a hmem]
  · intro i tx a htx happlied
    rw [hreplayed.outputs i tx a htx happlied]
    exact ha.advances a (List.mem_of_getElem? happlied)

theorem metaOps_progress (s : Store) (block : Block) (ids : Counters) (window : LedgerStateWindow) :
    nextId (commit s (metaOps block ids window)) walletTxIndexedThroughKey = ids.nextTxId ∧
      nextId (commit s (metaOps block ids window)) walletDustIndexedThroughKey = ids.nextEventId := by
  have hne := metaKeys_nodup
  have hrev := List.nodup_reverse.mpr metaKeys_nodup
  simp only [metaKeys, List.reverse_cons, List.reverse_nil, List.nil_append, List.cons_append,
    List.nodup_cons, List.mem_cons, List.not_mem_nil, or_false, not_or] at hne hrev
  by_cases h : block.height = 0 <;>
    simp only [metaOps, nextId, metaU64, h, if_true, if_false, List.cons_append, List.nil_append,
      commit_cons, commit_nil, apply_put_same, get_insert, hne, hrev, and_self, Option.getD_some]

theorem progress_of_run (h : Run blocks full ids) :
    nextId full walletTxIndexedThroughKey = ids.nextTxId ∧
      nextId full walletDustIndexedThroughKey = ids.nextEventId := by
  induction h with
  | start => decide
  | @step blocks s s' ids ids' d ledgerStateKey window h hroom hblock ih =>
      obtain ⟨st, balances, -, -, rfl, rfl⟩ := writeBlock_ok.mp hblock
      rw [blockBatch_eq]
      exact metaOps_progress _ d.block st.ids _
  | @scan blocks s s' ids h hscan ih =>
      have hmeta : s' .metadata = s .metadata := hscan _ (by decide)
      rw [nextId, nextId, metaU64_other hmeta, metaU64_other hmeta]
      exact ih

/-- The pipeline itself leaves the sidecars complete. -/
theorem sidecars_of_run (h : Run blocks full ids) (hcount : ∀ d ∈ blocks, CountsFit d) :
    Sidecars full full (logOf blocks).events (blocks.flatMap DerivedBlock.transactions)
      (blocks.flatMap DerivedBlock.transactions).length (logOf blocks).events.length := by
  have htables := h.holds.tables
  have hreplayed := logOf_replayed hcount
  obtain ⟨htx, hevent⟩ := progress_of_run h
  have hids := h.holds.counters
  refine ⟨Nat.le_refl _, Nat.le_refl _, ?_, ?_, ?_, ?_, fun _ _ _ => rfl, fun _ _ _ _ => rfl⟩
  · rw [List.take_length, ← hreplayed.indices]
    exact htables.txs.walletTxIndices
  · rw [List.take_length]
    exact htables.events.dust
  · rw [htx, hids, ← hreplayed.length]
    rfl
  · rw [hevent, hids]
    rfl

/-- Complete sidecars are those of the pipeline. -/
theorem sidecars_unique {s₀ s t : Store} {events : List EventRecord}
    {applied : List AppliedTransaction} {p q : Nat} (h : Sidecars s₀ s events applied p q)
    (h' : Sidecars s₀ t events applied p q) :
    (∀ part : Part, part ≠ .metadata → s part = t part) ∧
      (∀ k, k ≠ walletTxIndexedThroughKey → k ≠ walletDustIndexedThroughKey →
        (s .metadata)[k]? = (t .metadata)[k]?) ∧
      nextId s walletTxIndexedThroughKey = nextId t walletTxIndexedThroughKey ∧
      nextId s walletDustIndexedThroughKey = nextId t walletDustIndexedThroughKey := by
  refine ⟨fun part hpart => ?_, fun k hk hk' => (h.metadata k hk hk').trans (h'.metadata k hk hk').symm,
    h.txProgress.trans h'.txProgress.symm, h.eventProgress.trans h'.eventProgress.symm⟩
  by_cases htx : part = .walletTxIndices
  · subst htx
    exact ext_indexed h.txIndices h'.txIndices
  · by_cases hdust : part = .walletDustEvents
    · subst hdust
      apply ext_keys
      intro k
      exact (h.dustEvents k).trans (h'.dustEvents k).symm
    · exact (h.others part hpart htx hdust).trans (h'.others part hpart htx hdust).symm

/-- From any prefix of the sidecars, and however often it was cut off, a run
succeeds and leaves them as the pipeline would have written them. -/
theorem sidecars_backfilled {s₀ s : Store} {txs : List TxRecord} {events : List EventRecord}
    {applied : List AppliedTransaction} {tipZswapEnd p q : Nat}
    (h : Chain s₀ txs events applied tipZswapEnd) (hs : Sidecars s₀ s events applied p q) :
    (∀ t, Attempts (backfillWalletSidecars tipZswapEnd) s t →
      ∃ counts s', (backfillWalletSidecars tipZswapEnd).run t = (.ok counts, s')) ∧
    (∀ counts s', Completes (backfillWalletSidecars tipZswapEnd) s counts s' →
      Sidecars s₀ s' events applied applied.length events.length) ∧
    ∀ blocks ids, Run blocks s₀ ids → (∀ d ∈ blocks, CountsFit d) → events = (logOf blocks).events →
      applied = blocks.flatMap DerivedBlock.transactions →
      ∀ counts s', Completes (backfillWalletSidecars tipZswapEnd) s counts s' →
        (∀ part : Part, part ≠ .metadata → s' part = s₀ part) ∧
        (∀ k, k ≠ walletTxIndexedThroughKey → k ≠ walletDustIndexedThroughKey →
          (s' .metadata)[k]? = (s₀ .metadata)[k]?) ∧
        nextId s' walletTxIndexedThroughKey = nextId s₀ walletTxIndexedThroughKey ∧
        nextId s' walletDustIndexedThroughKey = nextId s₀ walletDustIndexedThroughKey := by
  have hkeeps : ∀ s, Begun s₀ events applied s → Keeps (Begun s₀ events applied) (fun _ => False)
      (fun _ s' => Sidecars s₀ s' events applied applied.length events.length)
      (backfillWalletSidecars tipZswapEnd) s := fun _ hb => backfill_keeps h hb
  have hbegun : Begun s₀ events applied s := ⟨p, q, hs⟩
  have hdone : ∀ counts s', Completes (backfillWalletSidecars tipZswapEnd) s counts s' →
      Sidecars s₀ s' events applied applied.length events.length := by
    intro counts s' hcompletes
    obtain ⟨-, -, -, hcomplete⟩ := completes_keep hkeeps hbegun hcompletes
    exact hcomplete
  refine ⟨fun t ht => ?_, hdone, ?_⟩
  · have hkept := hkeeps t (attempts_keep hkeeps hbegun ht)
    cases hrun : (backfillWalletSidecars tipZswapEnd).run t with
    | mk result s' =>
        cases result with
        | ok counts => exact ⟨counts, s', rfl⟩
        | error e => exact (hkept.run_error hrun).2.elim
  · rintro blocks ids hrun hcount rfl rfl counts s' hcompletes
    exact sidecars_unique (hdone counts s' hcompletes) (sidecars_of_run hrun hcount)

end Pipeline

section Samples

def outputTransaction (zswapStartIndex : Nat) : AppliedTransaction :=
  { emptyTransaction with
    zswapStartIndex
    zswapEndIndex := zswapStartIndex + 1
    ledgerEvents := [zswapEvent, dustEvent] }

/-- Five outputs are older than the first transaction. -/
def outputBlock : DerivedBlock :=
  ⟨emptyBlock 0 zero_lt_u64, [outputTransaction 5, outputTransaction 6],
    by simp [Derived, outputTransaction, emptyTransaction]⟩

def outputStore : Store × Counters :=
  (writeBlock fresh outputBlock.block outputBlock.transactions [] []
    (Counters.load fresh)).toOption.getD (fresh, Counters.load fresh)

theorem run_outputStore : Run [outputBlock] outputStore.1 outputStore.2 :=
  Run.start.step outputBlock [] [] (by decide +kernel) (ok_of_toBool (by decide +kernel) (fresh, Counters.load fresh))

/-- The store without its sidecars, as before there were any. -/
def bareStore : Store
  | .walletTxIndices => ∅
  | .walletDustEvents => ∅
  | .metadata =>
      ((outputStore.1 .metadata).erase walletTxIndexedThroughKey).erase walletDustIndexedThroughKey
  | part => outputStore.1 part

theorem bareStore_sidecars : Sidecars outputStore.1 bareStore (logOf [outputBlock]).events
    ([outputBlock].flatMap DerivedBlock.transactions) 0 0 := by
  refine ⟨Nat.zero_le _, Nat.zero_le _, .empty, .empty _, by decide +kernel, by decide +kernel,
    fun k hk hk' => ?_, fun part hm ht hd => ?_⟩
  · show (((outputStore.1 .metadata).erase _).erase _)[k]? = _
    rw [get_erase, if_neg (fun he => hk' he.symm), get_erase, if_neg (fun he => hk he.symm)]
  · cases part <;> first | rfl | contradiction

theorem outputBlock_advances : Advances [outputBlock] 7 := by
  constructor
  · intro d hd a ha
    obtain rfl := List.mem_singleton.mp hd
    rcases List.mem_cons.mp ha with rfl | ha
    · rfl
    · obtain rfl := List.mem_singleton.mp ha
      rfl
  · intro a ha
    rcases List.mem_cons.mp ha with rfl | ha
    · rfl
    · obtain rfl := List.mem_singleton.mp ha
      rfl
  · intro i a b ha hb
    match i with
    | 0 =>
        cases ha
        cases hb
        rfl
    | i + 1 => cases hb
  · intro a ha
    cases ha
    rfl

theorem sidecars_backfilled_outputs : ∃ counts s',
    (backfillWalletSidecars 7).run bareStore = (.ok counts, s') ∧
      s' .walletTxIndices = outputStore.1 .walletTxIndices ∧
      nextId s' walletDustIndexedThroughKey = 4 := by
  have hcount : ∀ d ∈ [outputBlock], CountsFit d := by
    intro d hd
    obtain rfl := List.mem_singleton.mp hd
    refine ⟨by decide, fun a ha => ?_⟩
    rcases List.mem_cons.mp ha with rfl | ha
    · decide
    · obtain rfl := List.mem_singleton.mp ha
      decide
  have hconsecutive : Consecutive [outputBlock] := by
    intro i d hd
    match i with
    | 0 =>
        cases hd
        rfl
    | i + 1 => cases hd
  have hchain := chain_of_run run_outputStore hconsecutive hcount outputBlock_advances
  obtain ⟨hruns, -, hpipeline⟩ := sidecars_backfilled hchain bareStore_sidecars
  obtain ⟨counts, s', hrun⟩ := hruns _ .start
  obtain ⟨hparts, -, -, hprogress⟩ :=
    hpipeline _ _ run_outputStore hcount rfl rfl counts s' ⟨_, .start, hrun⟩
  refine ⟨counts, s', hrun, hparts _ (by decide), ?_⟩
  rw [hprogress]
  decide +kernel

end Samples

end Nightfrost.SidecarBackfill
