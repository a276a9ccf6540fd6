import Nightfrost.Staging

namespace Nightfrost.EntityLog

open ByteOrder Tables Partitions Domain Schema WriteBlock Staging ExceptFold

/-- What a store is for: the chain's records, each list in id order. -/
structure ChainLog where
  blocks : List BlockRecord
  txs : List TxRecord
  events : List EventRecord
  actions : List ContractActionRecord
  walletTxIndices : List WalletTxIndexRecord

def ChainLog.empty : ChainLog := ⟨[], [], [], [], []⟩

def ChainLog.counters (log : ChainLog) : Counters :=
  ⟨log.txs.length, log.actions.length, log.events.length⟩

def actionRecord (txId : Nat) (action : Bytes × ContractActionRecord × Bytes) : ContractActionRecord :=
  { action.2.1 with txId }

def newActions (txId : Nat) (applied : AppliedTransaction) : List ContractActionRecord :=
  applied.contractActions.map (actionRecord txId)

def actionIds (firstActionId : Nat) (applied : AppliedTransaction) : List Nat :=
  List.range' firstActionId applied.contractActions.length

def newEvents (height txId firstActionId : Nat) (applied : AppliedTransaction) : List EventRecord :=
  applied.ledgerEvents.map (fun event =>
    ⟨correlated (actionsOf applied (actionIds firstActionId applied)) event, txId, height⟩)

def walletTxIndex (applied : AppliedTransaction) : WalletTxIndexRecord :=
  ⟨applied.zswapStartIndex, applied.zswapEndIndex, applied.protocolVersion⟩

def ChainLog.newTx (log : ChainLog) (height index : Nat) (applied : AppliedTransaction) : TxRecord :=
  txRecord height index applied (actionIds log.actions.length applied) log.events.length
    (log.events.length + applied.ledgerEvents.length)

def ChainLog.addTransaction (height : Nat) (log : ChainLog) (entry : AppliedTransaction × Nat) :
    ChainLog :=
  { log with
    txs := log.txs ++ [log.newTx height entry.2 entry.1]
    events := log.events ++ newEvents height log.txs.length log.actions.length entry.1
    actions := log.actions ++ newActions log.txs.length entry.1
    walletTxIndices := log.walletTxIndices ++ [walletTxIndex entry.1] }

def ChainLog.addTransactions (height : Nat) (log : ChainLog) (transactions : List AppliedTransaction) :
    ChainLog :=
  transactions.zipIdx.foldl (ChainLog.addTransaction height) log

def ChainLog.addBlock (log : ChainLog) (block : Block) (transactions : List AppliedTransaction) :
    ChainLog :=
  let next := log.addTransactions block.height transactions
  { next with blocks := log.blocks ++ [blockRecord block log.txs.length transactions.length] }

/-- An applied transaction as the replay derives it: each action record names
the address it is filed under and the height of the block. -/
def Derived (height : Nat) (applied : AppliedTransaction) : Prop :=
  ∀ action ∈ applied.contractActions, action.2.1.address = action.1 ∧ action.2.1.blockHeight = height

def actionKeys (record : ContractActionRecord) (id : Nat) : List Bytes :=
  [prefixedU64Key record.address id]

def contractEventKeys (record : EventRecord) (id : Nat) : List Bytes :=
  record.event.contractAddress.toList.map (fun address => prefixedU64Key address id)

def dustEventKeys (record : EventRecord) (id : Nat) : List Bytes :=
  if record.event.grouping = .dust then [be 8 id] else []

def hashKeys (record : TxRecord) (id : Nat) : List Bytes := [prefixedU64Key record.hash.val id]

def identifierKeys (record : TxRecord) (id : Nat) : List Bytes :=
  record.identifiers.map (fun identifier => prefixedU64Key identifier id)

def owners (created spent : List UnshieldedUtxo) : List (ByteArr 32) :=
  (created ++ spent).map UnshieldedUtxo.owner

def addressKeys (record : TxRecord) (id : Nat) : List Bytes :=
  (owners record.createdUtxos record.spentUtxos).map (fun owner => prefixedU64Key owner.val id)

structure ActionTables (view : Store) (actions : List ContractActionRecord) : Prop where
  records : Indexed (view .contractActions) actions
  byAddr : IndexOf (view .contractActionsByAddr) actions actionKeys

structure EventTables (view : Store) (events : List EventRecord) : Prop where
  records : Indexed (view .ledgerEvents) events
  byContract : IndexOf (view .eventsByContract) events contractEventKeys
  dust : IndexOf (view .walletDustEvents) events dustEventKeys

structure TxTables (view : Store) (log : ChainLog) : Prop where
  records : Indexed (view .txs) log.txs
  byHash : IndexOf (view .txsByHash) log.txs hashKeys
  byIdentifier : IndexOf (view .txsByIdentifier) log.txs identifierKeys
  walletTxIndices : Indexed (view .walletTxIndices) log.walletTxIndices
  sameLength : log.walletTxIndices.length = log.txs.length

structure LogTables (view : Store) (log : ChainLog) : Prop where
  actions : ActionTables view log.actions
  events : EventTables view log.events
  txs : TxTables view log

theorem ActionTables.congr {view view' : Store} {actions : List ContractActionRecord}
    (h : ActionTables view actions) (h₁ : view' .contractActions = view .contractActions)
    (h₂ : view' .contractActionsByAddr = view .contractActionsByAddr) : ActionTables view' actions :=
  ⟨by rw [h₁]; exact h.records, by rw [h₂]; exact h.byAddr⟩

theorem EventTables.congr {view view' : Store} {events : List EventRecord}
    (h : EventTables view events) (h₁ : view' .ledgerEvents = view .ledgerEvents)
    (h₂ : view' .eventsByContract = view .eventsByContract)
    (h₃ : view' .walletDustEvents = view .walletDustEvents) : EventTables view' events :=
  ⟨by rw [h₁]; exact h.records, by rw [h₂]; exact h.byContract, by rw [h₃]; exact h.dust⟩

theorem TxTables.congr {view view' : Store} {log : ChainLog} (h : TxTables view log)
    (h₁ : view' .txs = view .txs) (h₂ : view' .txsByHash = view .txsByHash)
    (h₃ : view' .txsByIdentifier = view .txsByIdentifier)
    (h₄ : view' .walletTxIndices = view .walletTxIndices) : TxTables view' log :=
  ⟨by rw [h₁]; exact h.records, by rw [h₂]; exact h.byHash, by rw [h₃]; exact h.byIdentifier,
    by rw [h₄]; exact h.walletTxIndices, h.sameLength⟩

def logParts : List Part :=
  [.contractActions, .contractActionsByAddr, .ledgerEvents, .eventsByContract, .walletDustEvents,
    .txs, .txsByHash, .txsByIdentifier, .walletTxIndices]

theorem LogTables.congr {view view' : Store} {log : ChainLog} (h : LogTables view log)
    (hp : ∀ p ∈ logParts, view' p = view p) : LogTables view' log where
  actions := h.actions.congr (hp _ (by decide)) (hp _ (by decide))
  events := h.events.congr (hp _ (by decide)) (hp _ (by decide)) (hp _ (by decide))
  txs := h.txs.congr (hp _ (by decide)) (hp _ (by decide)) (hp _ (by decide)) (hp _ (by decide))

section Steps

variable {s : Store} {st st' : Staged}

theorem writeContractAction_tables {txId : Nat} {action : Bytes × ContractActionRecord × Bytes}
    {acc : Staged × List Nat} {actions : List ContractActionRecord} (hroom : actions.length + 1 < 2 ^ 64)
    (haddr : action.2.1.address = action.1) (hids : acc.1.ids.nextActionId = actions.length)
    (h : ActionTables (pending s acc.1) actions) :
    (writeContractAction s txId acc action).1.ids = { acc.1.ids with nextActionId := actions.length + 1 } ∧
      (writeContractAction s txId acc action).2 = acc.2 ++ [actions.length] ∧
      ActionTables (pending s (writeContractAction s txId acc action).1)
        (actions ++ [actionRecord txId action]) := by
  rw [writeContractAction]
  dsimp only
  rw [hids, increment_eq hroom]
  refine ⟨stageContractAction_ids _ _ _, rfl, ?_, ?_⟩
  · rw [stageContractAction, (stageContract_frame (by decide) _ _ _).1,
      (stageState_frame (by decide) _ _).1]
    simpa [hids, actionRecord] using h.records.push (actionRecord txId action)
      (Nat.lt_of_succ_lt hroom)
  · apply h.byAddr.push
    intro k
    rw [stageContractAction, (stageContract_frame (by decide) _ _ _).1,
      (stageState_frame (by decide) _ _).1]
    simp only [actionKeys, actionRecord, haddr, List.mem_singleton]
    simp only [ne_eq, reduceCtorEq, not_false_eq_true, pending_put_same, pending_put_other,
      pending_with_ids, Tables.mem_insert]
    tauto

theorem writeContractActions_tables {txId : Nat} {applied : AppliedTransaction}
    {actions : List ContractActionRecord} {ids : List Nat}
    (hrun : applied.contractActions.foldl (writeContractAction s txId) (st, []) = (st', ids))
    (hroom : actions.length + applied.contractActions.length < 2 ^ 64)
    (haddr : ∀ action ∈ applied.contractActions, action.2.1.address = action.1)
    (hids : st.ids.nextActionId = actions.length) (h : ActionTables (pending s st) actions) :
    st'.ids = { st.ids with nextActionId := actions.length + applied.contractActions.length } ∧
      ids = actionIds actions.length applied ∧
      ActionTables (pending s st') (actions ++ newActions txId applied) := by
  refine foldl_split hrun (I := fun done acc =>
    acc.1.ids = { st.ids with nextActionId := actions.length + done.length } ∧
      acc.2 = List.range' actions.length done.length ∧
      ActionTables (pending s acc.1) (actions ++ done.map (actionRecord txId))) ?_ ?_
  · exact ⟨by simp [← hids], rfl, by simpa using h⟩
  · rintro done action rest a hcut ⟨hi, hl, ht⟩
    have hmem : action ∈ applied.contractActions := by simp [hcut]
    have hone : (actions ++ done.map (actionRecord txId)).length + 1 < 2 ^ 64 := by
      rw [hcut] at hroom
      simp at hroom ⊢
      omega
    obtain ⟨hi', hl', ht'⟩ := writeContractAction_tables hone (haddr action hmem)
      (by rw [hi]; simp) ht
    refine ⟨?_, ?_, ?_⟩
    · rw [hi', hi]
      simp [Nat.add_assoc]
    · rw [hl', hl]
      simp [List.range'_concat]
    · simpa using ht'

theorem mem_stageContractIndex (contractAddress : Option Bytes) (eventId : Nat) (k : Bytes) :
    k ∈ pending s (stageContractIndex st contractAddress eventId) .eventsByContract ↔
      k ∈ pending s st .eventsByContract ∨
        k ∈ contractAddress.toList.map (fun address => prefixedU64Key address eventId) := by
  cases contractAddress with
  | none => simp [stageContractIndex]
  | some address =>
      simp only [stageContractIndex, pending_put_same, Tables.mem_insert, Option.toList_some,
        List.map_cons, List.map_nil, List.mem_singleton]
      tauto

theorem mem_stageDustIndex (grouping : LedgerEventGrouping) (eventId : Nat) (k : Bytes) :
    k ∈ pending s (stageDustIndex st grouping eventId) .walletDustEvents ↔
      k ∈ pending s st .walletDustEvents ∨ k ∈ if grouping = .dust then [be 8 eventId] else [] := by
  cases grouping with
  | dust =>
      simp only [stageDustIndex, pending_put_same, Tables.mem_insert, if_true, List.mem_singleton]
      tauto
  | zswap => simp [stageDustIndex]
  | contract => simp [stageDustIndex]

theorem writeLedgerEvent_tables {height txId : Nat}
    {actions : List (Nat × Bytes × ContractAttributes)} {event : LedgerEvent}
    {events : List EventRecord} (hroom : events.length + 1 < 2 ^ 64)
    (hids : st.ids.nextEventId = events.length) (h : EventTables (pending s st) events) :
    (writeLedgerEvent height txId actions st event).ids = { st.ids with nextEventId := events.length + 1 } ∧
      EventTables (pending s (writeLedgerEvent height txId actions st event))
        (events ++ [⟨correlated actions event, txId, height⟩]) := by
  rw [writeLedgerEvent]
  dsimp only
  rw [hids, increment_eq hroom]
  refine ⟨stageLedgerEvent_ids _ _ _ _, ?_, ?_, ?_⟩
  · rw [stageLedgerEvent, (stageDustGeneration_frame (by decide) _ _).1,
      (stageDustIndex_frame (by decide) _ _).1, pending_put_same,
      (stageContractIndex_frame (by decide) _ _).1]
    exact h.records.push _ (Nat.lt_of_succ_lt hroom)
  · apply h.byContract.push
    intro k
    rw [stageLedgerEvent, (stageDustGeneration_frame (by decide) _ _).1,
      (stageDustIndex_frame (by decide) _ _).1, pending_put_other _ _ (by decide),
      mem_stageContractIndex]
    rfl
  · apply h.dust.push
    intro k
    rw [stageLedgerEvent, (stageDustGeneration_frame (by decide) _ _).1, mem_stageDustIndex,
      pending_put_other _ _ (by decide), (stageContractIndex_frame (by decide) _ _).1]
    rfl

theorem writeLedgerEvents_tables {height txId : Nat}
    {actions : List (Nat × Bytes × ContractAttributes)} {new : List LedgerEvent}
    {events : List EventRecord} (hrun : new.foldl (writeLedgerEvent height txId actions) st = st')
    (hroom : events.length + new.length < 2 ^ 64)
    (hids : st.ids.nextEventId = events.length) (h : EventTables (pending s st) events) :
    st'.ids = { st.ids with nextEventId := events.length + new.length } ∧
      EventTables (pending s st')
        (events ++ new.map (fun event => ⟨correlated actions event, txId, height⟩)) := by
  refine foldl_split hrun (I := fun done a =>
    a.ids = { st.ids with nextEventId := events.length + done.length } ∧
      EventTables (pending s a)
        (events ++ done.map (fun event => ⟨correlated actions event, txId, height⟩))) ?_ ?_
  · exact ⟨by simp [← hids], by simpa using h⟩
  · rintro done event rest a hcut ⟨hi, ht⟩
    have hone : (events ++ done.map (fun event =>
        (⟨correlated actions event, txId, height⟩ : EventRecord))).length + 1 < 2 ^ 64 := by
      rw [hcut] at hroom
      simp at hroom ⊢
      omega
    obtain ⟨hi', ht'⟩ := writeLedgerEvent_tables hone (by rw [hi]; simp) ht
    refine ⟨?_, by simpa using ht'⟩
    rw [hi', hi]
    simp [Nat.add_assoc]

theorem mem_foldl_put {p : Part} {v : p.Val} {keyOf : Bytes → Bytes} (identifiers : List Bytes)
    (k : Bytes) :
    k ∈ pending s (identifiers.foldl (fun st i => st.put p (keyOf i) v) st) p ↔
      k ∈ pending s st p ∨ k ∈ identifiers.map keyOf := by
  induction identifiers generalizing st with
  | nil => simp
  | cons i identifiers ih =>
      rw [List.foldl_cons, ih, pending_put_same, Tables.mem_insert, List.map_cons, List.mem_cons]
      tauto

theorem stageKeyIndexes_tables (st : Staged) {txId : Nat} (applied : AppliedTransaction)
    {txs : List TxRecord} {indices : List WalletTxIndexRecord} (record : TxRecord)
    (hlen : txs.length = txId) (hlen' : indices.length = txId) (hb : txId + 1 < 2 ^ 64)
    (hhash : record.hash = applied.hash) (hident : record.identifiers = applied.identifiers)
    (h₁ : IndexOf (pending s st .txsByHash) txs hashKeys)
    (h₂ : IndexOf (pending s st .txsByIdentifier) txs identifierKeys)
    (h₃ : Indexed (pending s st .walletTxIndices) indices) :
    IndexOf (pending s (stageKeyIndexes st applied txId) .txsByHash) (txs ++ [record]) hashKeys ∧
      IndexOf (pending s (stageKeyIndexes st applied txId) .txsByIdentifier) (txs ++ [record])
        identifierKeys ∧
      Indexed (pending s (stageKeyIndexes st applied txId) .walletTxIndices)
        (indices ++ [walletTxIndex applied]) := by
  refine ⟨h₁.push ?_, h₂.push ?_, ?_⟩
  · intro k
    rw [stageKeyIndexes, foldl_frame (f := fun a => pending s a .txsByHash)
      (fun a x => pending_put_other s a (by decide) _ _)]
    simp only [pending_put_same, Tables.mem_insert, hashKeys, hhash, hlen, List.mem_singleton]
    rw [pending_put_other _ _ (by decide)]
    tauto
  · intro k
    rw [stageKeyIndexes, mem_foldl_put, pending_put_other _ _ (by decide),
      pending_put_other _ _ (by decide), identifierKeys, hident, hlen]
  · rw [stageKeyIndexes, foldl_frame (f := fun a => pending s a .walletTxIndices)
      (fun a x => pending_put_other s a (by decide) _ _), pending_put_other _ _ (by decide),
      pending_put_same, ← hlen']
    exact h₃.push _ (by omega)

theorem writeTransaction_tables {height : Nat} {applied : AppliedTransaction} {index : Nat}
    {log : ChainLog} (hrun : writeTransaction s height st (applied, index) = .ok st')
    (hroom : Room st.ids [applied])
    (hd : Derived height applied) (hids : st.ids = log.counters)
    (h : LogTables (pending s st) log) :
    st'.ids = (log.addTransaction height (applied, index)).counters ∧
      LogTables (pending s st') (log.addTransaction height (applied, index)) := by
  obtain ⟨st₁, st₂, ids, st₃, h₁, h₂, h₃, rfl⟩ := writeTransaction_ok.mp hrun
  obtain ⟨hb, hactions, hevents⟩ := hroom
  have htx : st.ids.nextTxId = log.txs.length := by rw [hids]; rfl
  have haction : st.ids.nextActionId = log.actions.length := by rw [hids]; rfl
  have hevent : st.ids.nextEventId = log.events.length := by rw [hids]; rfl
  simp only [idsAfter, htx, haction, hevent, List.length_singleton, List.flatMap_singleton] at hb hactions hevents
  rw [htx, increment_eq hb] at h₁
  rw [htx] at h₂ h₃ ⊢
  rw [hevent]
  have f₁ : ∀ q, q ∉ [.utxos, .utxosUnspentByOwner] →
      pending s st₁ q = pending s (stageKeyIndexes
        { st with ids := { st.ids with nextTxId := log.txs.length + 1 } } applied
        log.txs.length) q := fun q hq => (utxos_frame hq h₁).1
  have hids₁ : st₁.ids = { st.ids with nextTxId := log.txs.length + 1 } :=
    (utxos_frame (q := .txs) (by decide) h₁).2.trans (stageKeyIndexes_ids _ _)
  have hactions₁ : ActionTables (pending s st₁) log.actions := by
    refine h.actions.congr ?_ ?_ <;>
    · rw [f₁ _ (by decide), stageKeyIndexes_frame (by decide)]
      rfl
  obtain ⟨hids₂, rfl, hactions₂⟩ := writeContractActions_tables h₂ hactions (fun a ha => (hd a ha).1)
    (by rw [hids₁]; exact haction) hactions₁
  have hevents₂ : EventTables (pending s st₂) log.events := by
    refine h.events.congr ?_ ?_ ?_ <;>
    · rw [(writeContractActions_frame (by decide) h₂).1, f₁ _ (by decide),
        stageKeyIndexes_frame (by decide)]
      rfl
  obtain ⟨hids₃, hevents₃⟩ := writeLedgerEvents_tables h₃ hevents
    (by rw [hids₂, hids₁]; exact hevent) hevents₂
  rw [hids₃]
  have f₃ : ∀ q, q ∉ logParts.take 5 → q ∉ [.utxos, .utxosUnspentByOwner] →
      q ∉ [.contractStates, .contracts] → q ∉ [.dustGeneration, .dustGenByOwner] →
      pending s st₃ q = pending s (stageKeyIndexes
        { st with ids := { st.ids with nextTxId := log.txs.length + 1 } } applied
        log.txs.length) q := by
    intro q hq hu hc hg
    simp only [logParts, List.take_succ_cons, List.take_zero, List.mem_cons, List.not_mem_nil,
      or_false, not_or] at hq hc hg
    rw [(writeLedgerEvents_frame (by simp [hq, hg]) h₃).1,
      (writeContractActions_frame (by simp [hq, hc]) h₂).1, f₁ _ hu]
  have hkeys := stageKeyIndexes_tables (s := s)
    { st with ids := { st.ids with nextTxId := log.txs.length + 1 } } applied
    (log.newTx height index applied) rfl h.txs.sameLength hb rfl rfl
    h.txs.byHash h.txs.byIdentifier h.txs.walletTxIndices
  refine ⟨?_, ?_, ?_, ?_⟩
  · simp only [Staged.put, hids₃, hids₂, hids₁, ChainLog.counters, ChainLog.addTransaction,
      newActions, newEvents, List.length_append, List.length_map, List.length_singleton]
  · refine hactions₂.congr ?_ ?_ <;>
    · rw [pending_put_other _ _ (by decide), (writeLedgerEvents_frame (by decide) h₃).1]
  · refine hevents₃.congr ?_ ?_ ?_ <;>
    · rw [pending_put_other _ _ (by decide)]
  · refine ⟨?_, ?_, ?_, ?_, ?_⟩
    · rw [pending_put_same, f₃ _ (by decide) (by decide) (by decide) (by decide),
        stageKeyIndexes_frame (by decide)]
      exact h.txs.records.push _ (Nat.lt_of_succ_lt hb)
    · rw [pending_put_other _ _ (by decide),
        f₃ _ (by decide) (by decide) (by decide) (by decide)]
      exact hkeys.1
    · rw [pending_put_other _ _ (by decide),
        f₃ _ (by decide) (by decide) (by decide) (by decide)]
      exact hkeys.2.1
    · rw [pending_put_other _ _ (by decide),
        f₃ _ (by decide) (by decide) (by decide) (by decide)]
      exact hkeys.2.2
    · simp [ChainLog.addTransaction, h.txs.sameLength]

end Steps

end Nightfrost.EntityLog
