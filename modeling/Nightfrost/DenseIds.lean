import Nightfrost.BlockRun

namespace Nightfrost.DenseIds

open ByteOrder Tables Partitions Domain Schema WriteBlock ExceptFold EntityLog BlockStep BlockRun

/-- The counts of a block fit the 32 bits that its records have for them. -/
def CountsFit (d : DerivedBlock) : Prop :=
  d.transactions.length < 2 ^ 32 ∧ ∀ applied ∈ d.transactions, applied.ledgerEvents.length < 2 ^ 32

section Log

/-- The transactions of a log share out its event ids and its action ids, and
every event and action names the transaction that it is listed under. -/
structure Shared (log : ChainLog) : Prop where
  events : log.txs.flatMap (fun tx => List.range' tx.firstEventId tx.eventCount) =
    List.range log.events.length
  actions : log.txs.flatMap TxRecord.contractActionIds = List.range log.actions.length
  eventOwner : ∀ (i : Nat) record, log.events[i]? = some record → ∃ tx,
    log.txs[record.txId]? = some tx ∧ i ∈ List.range' tx.firstEventId tx.eventCount ∧
      tx.blockHeight = record.blockHeight
  actionOwner : ∀ (i : Nat) record, log.actions[i]? = some record → ∃ tx,
    log.txs[record.txId]? = some tx ∧ i ∈ tx.contractActionIds ∧
      tx.blockHeight = record.blockHeight

theorem Shared.empty : Shared ChainLog.empty := by
  constructor
  · rfl
  · rfl
  · intro i record h
    cases h
  · intro i record h
    cases h

theorem eventCount_newTx (log : ChainLog) (height index : Nat) {applied : AppliedTransaction}
    (h : applied.ledgerEvents.length < 2 ^ 32) :
    (log.newTx height index applied).eventCount = applied.ledgerEvents.length := by
  show (log.events.length + applied.ledgerEvents.length + 2 ^ 64 - log.events.length) % 2 ^ 32 = _
  omega

theorem getElem?_append_cases {α : Type} {xs ys : List α} {i : Nat} {a : α}
    (h : (xs ++ ys)[i]? = some a) :
    xs[i]? = some a ∨ ∃ j, i = xs.length + j ∧ ys[j]? = some a := by
  rcases Nat.lt_or_ge i xs.length with hlt | hge
  · rw [List.getElem?_append_left hlt] at h
    exact .inl h
  · rw [List.getElem?_append_right hge] at h
    exact .inr ⟨i - xs.length, by omega, h⟩

theorem Shared.addTransaction {log : ChainLog} (h : Shared log) {height : Nat}
    {applied : AppliedTransaction} (index : Nat) (hd : Derived height applied)
    (hcount : applied.ledgerEvents.length < 2 ^ 32) :
    Shared (log.addTransaction height (applied, index)) := by
  have hevents := eventCount_newTx log height index hcount
  have hold : ∀ {i : Nat} {tx : TxRecord}, log.txs[i]? = some tx →
      (log.txs ++ [log.newTx height index applied])[i]? = some tx := by
    intro i tx hget
    rw [List.getElem?_append_left (List.getElem?_eq_some_iff.mp hget).1]
    exact hget
  have hnew : (log.txs ++ [log.newTx height index applied])[log.txs.length]? =
      some (log.newTx height index applied) := List.getElem?_concat_length
  constructor
  · show (log.txs ++ [log.newTx height index applied]).flatMap _ = List.range _
    rw [List.flatMap_append, h.events, List.flatMap_singleton, hevents]
    show _ ++ List.range' log.events.length _ = List.range (log.events ++ newEvents _ _ _ _).length
    rw [List.length_append, newEvents, List.length_map, List.range_eq_range',
      List.range_eq_range', ← List.range'_append_1, Nat.zero_add]
  · show (log.txs ++ [log.newTx height index applied]).flatMap _ = List.range _
    rw [List.flatMap_append, h.actions, List.flatMap_singleton]
    show _ ++ List.range' log.actions.length _ = List.range (log.actions ++ newActions _ _).length
    rw [List.length_append, newActions, List.length_map, List.range_eq_range',
      List.range_eq_range', ← List.range'_append_1, Nat.zero_add]
  · intro i record hget
    rcases getElem?_append_cases hget with hleft | ⟨j, rfl, hright⟩
    · obtain ⟨tx, htx, hi, hheight⟩ := h.eventOwner i record hleft
      exact ⟨tx, hold htx, hi, hheight⟩
    · have hj := (List.getElem?_eq_some_iff.mp hright).1
      rw [newEvents, List.length_map] at hj
      rw [newEvents, List.getElem?_map] at hright
      obtain ⟨event, -, rfl⟩ := Option.map_eq_some_iff.mp hright
      refine ⟨_, hnew, ?_, rfl⟩
      rw [hevents, List.mem_range'_1]
      exact ⟨Nat.le_add_right _ _, Nat.add_lt_add_left hj _⟩
  · intro i record hget
    rcases getElem?_append_cases hget with hleft | ⟨j, rfl, hright⟩
    · obtain ⟨tx, htx, hi, hheight⟩ := h.actionOwner i record hleft
      exact ⟨tx, hold htx, hi, hheight⟩
    · have hj := (List.getElem?_eq_some_iff.mp hright).1
      rw [newActions, List.length_map] at hj
      rw [newActions, List.getElem?_map] at hright
      obtain ⟨action, haction, rfl⟩ := Option.map_eq_some_iff.mp hright
      refine ⟨_, hnew, ?_, (hd action (List.mem_of_getElem? haction)).2.symm⟩
      show log.actions.length + j ∈ List.range' log.actions.length _
      rw [List.mem_range'_1]
      exact ⟨Nat.le_add_right _ _, Nat.add_lt_add_left hj _⟩

theorem addTransactions_txs (height : Nat) (transactions : List AppliedTransaction) (log : ChainLog) :
    ∃ new, (log.addTransactions height transactions).txs = log.txs ++ new ∧
      new.length = transactions.length ∧
      ∀ (i : Nat) tx, new[i]? = some tx → tx.blockHeight = height ∧ tx.indexInBlock = i % 2 ^ 32 := by
  have general : ∀ (transactions : List AppliedTransaction) (k : Nat) (log : ChainLog),
      ∃ new, ((transactions.zipIdx k).foldl (ChainLog.addTransaction height) log).txs =
          log.txs ++ new ∧ new.length = transactions.length ∧
        ∀ (i : Nat) tx, new[i]? = some tx →
          tx.blockHeight = height ∧ tx.indexInBlock = (k + i) % 2 ^ 32 := by
    intro transactions
    induction transactions with
    | nil =>
        intro k log
        exact ⟨[], (List.append_nil _).symm, rfl, fun i tx h => by cases h⟩
    | cons applied transactions ih =>
        intro k log
        obtain ⟨new, hnew, hlen, hrows⟩ := ih (k + 1) (log.addTransaction height (applied, k))
        refine ⟨log.newTx height k applied :: new, ?_, by rw [List.length_cons, hlen]; rfl, ?_⟩
        · rw [List.zipIdx_cons, List.foldl_cons, hnew]
          exact List.append_assoc _ [_] _
        · intro i tx hget
          cases i with
          | zero =>
              obtain rfl := Option.some.inj hget
              exact ⟨rfl, rfl⟩
          | succ i =>
              obtain ⟨hheight, hindex⟩ := hrows i tx hget
              exact ⟨hheight, by rw [hindex, Nat.add_right_comm, Nat.add_assoc]⟩
  obtain ⟨new, hnew, hlen, hrows⟩ := general transactions 0 log
  refine ⟨new, hnew, hlen, fun i tx hget => ?_⟩
  obtain ⟨hheight, hindex⟩ := hrows i tx hget
  rw [Nat.zero_add] at hindex
  exact ⟨hheight, hindex⟩

structure Ordered (log : ChainLog) : Prop where
  txs : log.blocks.flatMap (fun b => List.range' b.firstTxId b.txCount) = List.range log.txs.length
  txOwner : ∀ (i : Nat) tx, log.txs[i]? = some tx → ∃ b, log.blocks[tx.blockHeight]? = some b ∧
    i = b.firstTxId + tx.indexInBlock ∧ tx.indexInBlock < b.txCount

variable {blocks : List DerivedBlock}

theorem logOf_shared (hcount : ∀ d ∈ blocks, CountsFit d) : Shared (logOf blocks) := by
  apply logOf_induct
  · exact Shared.empty
  · intro log records h
    exact ⟨h.events, h.actions, h.eventOwner, h.actionOwner⟩
  · intro d hd entry hentry log h
    have hmem := List.fst_mem_of_mem_zipIdx hentry
    exact h.addTransaction entry.2 (d.derived _ hmem) ((hcount d hd).2 _ hmem)

theorem logOf_ordered (hc : Consecutive blocks) (hcount : ∀ d ∈ blocks, CountsFit d) :
    Ordered (logOf blocks) := by
  induction blocks using List.reverseRecOn with
  | nil => exact ⟨rfl, fun i tx h => by cases h⟩
  | append_singleton blocks d ih =>
      obtain ⟨hc', hheight⟩ := hc.of_push
      have hprev := ih hc' (fun e he => hcount e (List.mem_append_left _ he))
      have hsmall : d.transactions.length % 2 ^ 32 = d.transactions.length :=
        Nat.mod_eq_of_lt (hcount d (by simp)).1
      obtain ⟨new, hnew, hlen, hrows⟩ :=
        addTransactions_txs d.block.height d.transactions (logOf blocks)
      rw [logOf_push]
      constructor
      · show ((logOf blocks).blocks ++ [blockRecord _ _ _]).flatMap _ =
          List.range ((logOf blocks).addTransactions d.block.height d.transactions).txs.length
        rw [List.flatMap_append, hprev.txs, List.flatMap_singleton, hnew, List.length_append, hlen]
        show _ ++ List.range' _ (d.transactions.length % 2 ^ 32) = _
        rw [hsmall, List.range_eq_range', List.range_eq_range', ← List.range'_append_1, Nat.zero_add]
        rfl
      · intro i tx hget
        change ((logOf blocks).addTransactions _ _).txs[i]? = some tx at hget
        rw [hnew] at hget
        show ∃ b, ((logOf blocks).blocks ++ [blockRecord _ _ _])[tx.blockHeight]? = some b ∧ _
        rcases getElem?_append_cases hget with hleft | ⟨j, rfl, hright⟩
        · obtain ⟨b, hb, hi, hlt⟩ := hprev.txOwner i tx hleft
          refine ⟨b, ?_, hi, hlt⟩
          rw [List.getElem?_append_left (List.getElem?_eq_some_iff.mp hb).1]
          exact hb
        · obtain ⟨htxHeight, hindex⟩ := hrows j tx hright
          have hj := (List.getElem?_eq_some_iff.mp hright).1
          rw [Nat.mod_eq_of_lt (by omega)] at hindex
          refine ⟨blockRecord d.block (logOf blocks).txs.length d.transactions.length, ?_, ?_, ?_⟩
          · rw [htxHeight, hheight, ← logOf_blocks_length]
            exact List.getElem?_concat_length
          · rw [hindex]
            rfl
          · rw [hindex]
            show j < d.transactions.length % 2 ^ 32
            omega

end Log

section Store

def Ids {V : Type} (t : Table V) (n : Nat) : Prop :=
  n ≤ 2 ^ 64 ∧ ∀ k : Bytes, k ∈ t ↔ ∃ id, id < n ∧ k = be 8 id

def blockCount (s : Store) : Nat := (lastIndexedHeight s).elim 0 (· + 1)

def eventAt (s : Store) (eventId : Nat) : Option EventRecord := (s .ledgerEvents)[be 8 eventId]?

def actionAt (s : Store) (actionId : Nat) : Option ContractActionRecord :=
  (s .contractActions)[be 8 actionId]?

structure Dense (s : Store) : Prop where
  blocks : Ids (s .blocks) (blockCount s)
  txs : Ids (s .txs) (nextId s nextTxIdKey)
  events : Ids (s .ledgerEvents) (nextId s nextEventIdKey)
  actions : Ids (s .contractActions) (nextId s nextActionIdKey)
  blockRanges : (List.range (blockCount s)).flatMap (fun height =>
    (Schema.block s height).elim [] (fun b => List.range' b.firstTxId b.txCount)) =
      List.range (nextId s nextTxIdKey)
  eventRanges : (List.range (nextId s nextTxIdKey)).flatMap (fun txId =>
    (tx s txId).elim [] (fun tx => List.range' tx.firstEventId tx.eventCount)) =
      List.range (nextId s nextEventIdKey)
  actionIds : (List.range (nextId s nextTxIdKey)).flatMap (fun txId =>
    (tx s txId).elim [] TxRecord.contractActionIds) = List.range (nextId s nextActionIdKey)

structure Resolves (s : Store) : Prop where
  blocksByHash : ∀ (k : Bytes) height, (s .blocksByHash)[k]? = some height →
    height < blockCount s ∧ ∃ b, Schema.block s height = some b ∧ b.hash.val = k
  blocksByHash_of_block : ∀ height b, height < blockCount s → Schema.block s height = some b →
    ∃ last, (s .blocksByHash)[b.hash.val]? = some last ∧ height ≤ last
  blocksByHash_of_unique : ∀ height b, height < blockCount s → Schema.block s height = some b →
    (∀ other b', other < blockCount s → Schema.block s other = some b' → b'.hash = b.hash →
      other = height) → (s .blocksByHash)[b.hash.val]? = some height
  txsByHash : ∀ k : Bytes, k ∈ s .txsByHash ↔ ∃ txId r, txId < nextId s nextTxIdKey ∧
    tx s txId = some r ∧ k = prefixedU64Key r.hash.val txId
  txsByIdentifier : ∀ k : Bytes, k ∈ s .txsByIdentifier ↔ ∃ txId r, txId < nextId s nextTxIdKey ∧
    tx s txId = some r ∧ ∃ identifier ∈ r.identifiers, k = prefixedU64Key identifier txId
  eventsByContract : ∀ k : Bytes, k ∈ s .eventsByContract ↔ ∃ eventId r,
    eventId < nextId s nextEventIdKey ∧ eventAt s eventId = some r ∧
      ∃ address, r.event.contractAddress = some address ∧ k = prefixedU64Key address eventId
  walletDustEvents : ∀ k : Bytes, k ∈ s .walletDustEvents ↔ ∃ eventId r,
    eventId < nextId s nextEventIdKey ∧ eventAt s eventId = some r ∧ r.event.grouping = .dust ∧
      k = be 8 eventId
  contractActionsByAddr : ∀ k : Bytes, k ∈ s .contractActionsByAddr ↔ ∃ actionId r,
    actionId < nextId s nextActionIdKey ∧ actionAt s actionId = some r ∧
      k = prefixedU64Key r.address actionId
  walletTxIndices : Ids (s .walletTxIndices) (nextId s nextTxIdKey)

structure BackReferences (s : Store) : Prop where
  txs : ∀ txId r, txId < nextId s nextTxIdKey → tx s txId = some r → ∃ b,
    Schema.block s r.blockHeight = some b ∧ txId = b.firstTxId + r.indexInBlock ∧
      r.indexInBlock < b.txCount
  events : ∀ eventId r, eventId < nextId s nextEventIdKey → eventAt s eventId = some r → ∃ t,
    tx s r.txId = some t ∧ eventId ∈ List.range' t.firstEventId t.eventCount ∧
      t.blockHeight = r.blockHeight
  actions : ∀ actionId r, actionId < nextId s nextActionIdKey → actionAt s actionId = some r → ∃ t,
    tx s r.txId = some t ∧ actionId ∈ t.contractActionIds ∧ t.blockHeight = r.blockHeight

section Lists

variable {V : Type} {t : Table V} {entries : List V}

theorem Indexed.ids (h : Indexed t entries) : Ids t entries.length := by
  refine ⟨h.bound, fun k => ?_⟩
  rw [mem_iff]
  constructor
  · rintro ⟨v, hget⟩
    exact h.key k v hget
  · rintro ⟨id, hlt, rfl⟩
    exact ⟨_, h.get_lt hlt⟩

theorem Indexed.get_of_lt (h : Indexed t entries) {id : Nat} (hlt : id < entries.length) :
    t[be 8 id]? = entries[id]? := by
  have hbound := h.bound
  exact h.get id (by omega)

theorem Indexed.get_of_some (h : Indexed t entries) {id : Nat} {v : V} (hget : entries[id]? = some v) :
    t[be 8 id]? = some v := by
  rw [Indexed.get_of_lt h (List.getElem?_eq_some_iff.mp hget).1]
  exact hget

theorem map_getElem?_range {α : Type} (entries : List α) :
    (List.range entries.length).map (fun i => entries[i]?) = entries.map some := by
  apply List.ext_getElem
  · rw [List.length_map, List.length_map, List.length_range]
  · intro i hlt hlt'
    rw [List.length_map] at hlt'
    rw [List.getElem_map, List.getElem_map, List.getElem_range, List.getElem?_eq_getElem hlt']

theorem Indexed.flatMap (h : Indexed t entries) {α : Type} (f : V → List α) :
    (List.range entries.length).flatMap (fun id => (t[be 8 id]?).elim [] f) = entries.flatMap f := by
  have hrows : (List.range entries.length).map (fun id => t[be 8 id]?) = entries.map some := by
    rw [← map_getElem?_range]
    exact List.map_congr_left fun id hid => Indexed.get_of_lt h (List.mem_range.mp hid)
  calc (List.range entries.length).flatMap (fun id => (t[be 8 id]?).elim [] f)
      = ((List.range entries.length).map (fun id => t[be 8 id]?)).flatMap
          (fun row => row.elim [] f) := by rw [List.flatMap_map]
    _ = (entries.map some).flatMap (fun row => row.elim [] f) := by rw [hrows]
    _ = entries.flatMap f := List.flatMap_map _ _ _

theorem Files.by_rows {filed : Bytes → Prop} {keys : V → Nat → List Bytes}
    (h : Files filed entries keys) (ht : Indexed t entries) (k : Bytes) :
    filed k ↔ ∃ id v, id < entries.length ∧ t[be 8 id]? = some v ∧ k ∈ keys v id := by
  rw [h k]
  constructor
  · rintro ⟨id, v, hget, hk⟩
    exact ⟨id, v, (List.getElem?_eq_some_iff.mp hget).1, Indexed.get_of_some ht hget, hk⟩
  · rintro ⟨id, v, hlt, hget, hk⟩
    rw [Indexed.get_of_lt ht hlt] at hget
    exact ⟨id, v, hget, hk⟩

end Lists

section Hashes

variable {s s' : Store} {ids ids' : Counters} {d : DerivedBlock} {ledgerStateKey : Bytes}
  {window : LedgerStateWindow} {blocks : List DerivedBlock}

theorem writeBlock_blocksByHash
    (h : writeBlock s d.block d.transactions ledgerStateKey window ids = .ok (s', ids')) :
    s' .blocksByHash = (s .blocksByHash).insert d.block.hash.val d.block.height := by
  obtain ⟨st, balances, hloop, htail, rfl, rfl⟩ := writeBlock_ok.mp h
  rw [blockBatch_eq, metaOps_frame (by decide), commit_append, commit_cons, commit_cons,
    commit_nil, apply_put_same, apply_put_other _ (by decide), registrations_frame (by decide),
    writeAddresses_frame (by decide), writeBalances_frame (by decide) htail]
  have hold : commit s st.batch .blocksByHash = s .blocksByHash :=
    writeTransactions_frame (by decide) hloop
  rw [hold]

/-- The hash table holds the hashes of the blocks, each with the height of the
last block that has it. -/
structure HashTable (s : Store) (blocks : List DerivedBlock) : Prop where
  entries : ∀ (k : Bytes) height, (s .blocksByHash)[k]? = some height →
    ∃ d, blocks[height]? = some d ∧ d.block.hash.val = k
  found : ∀ (height : Nat) d, blocks[height]? = some d →
    ∃ last, (s .blocksByHash)[d.block.hash.val]? = some last ∧ height ≤ last

theorem Run.hashTable (h : Run blocks s ids) (hc : Consecutive blocks) : HashTable s blocks := by
  induction h with
  | start =>
      refine ⟨fun k height hk => ?_, fun height d hd => by cases hd⟩
      rw [fresh_other (by decide), get_empty] at hk
      cases hk
  | @step blocks s s' ids ids' d ledgerStateKey window h hroom hblock ih =>
      obtain ⟨hc', hheight⟩ := hc.of_push
      have hprev := ih hc'
      have htable := writeBlock_blocksByHash hblock
      constructor
      · intro k height hk
        rw [htable, get_insert] at hk
        split at hk
        · rename_i he
          obtain rfl := Option.some.inj hk
          exact ⟨d, by rw [hheight]; exact List.getElem?_concat_length, he⟩
        · obtain ⟨e, he, hhash⟩ := hprev.entries k height hk
          refine ⟨e, ?_, hhash⟩
          rw [List.getElem?_append_left (List.getElem?_eq_some_iff.mp he).1]
          exact he
      · intro height e he
        rw [htable, get_insert]
        have hlast : height ≤ d.block.height := by
          have hlt := (List.getElem?_eq_some_iff.mp he).1
          rw [List.length_append, List.length_singleton] at hlt
          omega
        split
        · exact ⟨_, rfl, hlast⟩
        · rename_i hne
          rcases getElem?_append_cases he with hleft | ⟨j, -, hright⟩
          · exact hprev.found height e hleft
          · cases j with
            | zero =>
                obtain rfl := Option.some.inj hright
                exact absurd rfl hne
            | succ j => cases hright
  | scan h hscan ih =>
      have hparts : ∀ p, p ∉ walletParts → _ := hscan
      obtain ⟨hentries, hfound⟩ := ih hc
      have htable := hparts .blocksByHash (by decide)
      exact ⟨by rw [htable]; exact hentries, by rw [htable]; exact hfound⟩

theorem logOf_block_field {α : Type} {f : BlockRecord → α} {g : Block → α}
    (h : ∀ block firstTxId txCount, f (blockRecord block firstTxId txCount) = g block)
    (blocks : List DerivedBlock) (height : Nat) :
    ((logOf blocks).blocks[height]?).map f = (blocks[height]?).map (fun d => g d.block) := by
  induction blocks using List.reverseRecOn with
  | nil => rfl
  | append_singleton blocks d ih =>
      rw [logOf_push]
      show (((logOf blocks).blocks ++ [_])[height]?).map _ = _
      rcases Nat.lt_trichotomy height blocks.length with hlt | rfl | hgt
      · rw [List.getElem?_append_left (by rwa [logOf_blocks_length]),
          List.getElem?_append_left hlt, ih]
      · rw [List.getElem?_concat_length, ← logOf_blocks_length, List.getElem?_concat_length]
        exact congrArg some (h _ _ _)
      · rw [List.getElem?_eq_none, List.getElem?_eq_none]
        · rfl
        · rw [List.length_append, List.length_singleton]
          omega
        · rw [List.length_append, List.length_singleton, logOf_blocks_length]
          omega

theorem logOf_block_hash (blocks : List DerivedBlock) (height : Nat) :
    ((logOf blocks).blocks[height]?).map BlockRecord.hash =
      (blocks[height]?).map (fun d => d.block.hash) :=
  logOf_block_field (fun _ _ _ => rfl) blocks height

end Hashes

section Run

variable {s : Store} {ids : Counters} {blocks : List DerivedBlock}

theorem Run.nextIds (h : Run blocks s ids) (hc : Consecutive blocks) :
    nextId s nextTxIdKey = (logOf blocks).txs.length ∧
      nextId s nextActionIdKey = (logOf blocks).actions.length ∧
      nextId s nextEventIdKey = (logOf blocks).events.length := by
  have hids : Counters.load s = (logOf blocks).counters :=
    (h.cursor hc).counters.trans h.holds.counters
  exact ⟨congrArg Counters.nextTxId hids, congrArg Counters.nextActionId hids,
    congrArg Counters.nextEventId hids⟩

theorem Run.blockCount (h : Run blocks s ids) (hc : Consecutive blocks) :
    DenseIds.blockCount s = (logOf blocks).blocks.length := by
  rw [DenseIds.blockCount, (h.cursor hc).lastHeight, logOf_blocks_length]
  rcases List.eq_nil_or_concat blocks with rfl | ⟨front, d, rfl⟩
  · rfl
  · rw [List.concat_eq_append] at hc ⊢
    rw [List.getLast?_concat, Option.map_some, hc.of_push.2, List.length_append]
    rfl

theorem Run.dense (h : Run blocks s ids) (hc : Consecutive blocks)
    (hcount : ∀ d ∈ blocks, CountsFit d) : Dense s := by
  obtain ⟨hnextTx, hnextAction, hnextEvent⟩ := Run.nextIds h hc
  have hblocks := Run.blockCount h hc
  have htables := h.holds.tables
  have hshared := logOf_shared hcount
  have hordered := logOf_ordered hc hcount
  refine ⟨?_, ?_, ?_, ?_, ?_, ?_, ?_⟩
  · rw [hblocks]
    exact Indexed.ids (h.cursor hc).records
  · rw [hnextTx]
    exact Indexed.ids htables.txs.records
  · rw [hnextEvent]
    exact Indexed.ids htables.events.records
  · rw [hnextAction]
    exact Indexed.ids htables.actions.records
  · rw [hblocks, hnextTx, ← hordered.txs]
    exact Indexed.flatMap (h.cursor hc).records _
  · rw [hnextTx, hnextEvent, ← hshared.events]
    exact Indexed.flatMap htables.txs.records _
  · rw [hnextTx, hnextAction, ← hshared.actions]
    exact Indexed.flatMap htables.txs.records _

theorem Run.resolves (h : Run blocks s ids) (hc : Consecutive blocks) : Resolves s := by
  obtain ⟨hnextTx, hnextAction, hnextEvent⟩ := Run.nextIds h hc
  have hblocks := Run.blockCount h hc
  have hrecords := (h.cursor hc).records
  have htables := h.holds.tables
  obtain ⟨hentries, hfound⟩ := Run.hashTable h hc
  have hhash := logOf_block_hash blocks
  have hpoints : ∀ (k : Bytes) height, (s .blocksByHash)[k]? = some height →
      height < DenseIds.blockCount s ∧ ∃ b, Schema.block s height = some b ∧ b.hash.val = k := by
    intro k height hk
    obtain ⟨d, hd, rfl⟩ := hentries k height hk
    have hrow := hhash height
    rw [hd, Option.map_some] at hrow
    obtain ⟨b, hb, hbhash⟩ := Option.map_eq_some_iff.mp hrow
    rw [hblocks]
    exact ⟨(List.getElem?_eq_some_iff.mp hb).1, b, Indexed.get_of_some hrecords hb,
      congrArg Subtype.val hbhash⟩
  have hlast : ∀ height b, height < DenseIds.blockCount s → Schema.block s height = some b →
      ∃ last, (s .blocksByHash)[b.hash.val]? = some last ∧ height ≤ last := by
    intro height b hlt hb
    rw [hblocks] at hlt
    rw [Schema.block, Indexed.get_of_lt hrecords hlt] at hb
    have hrow := hhash height
    rw [hb, Option.map_some] at hrow
    obtain ⟨d, hd, hdhash⟩ := Option.map_eq_some_iff.mp hrow.symm
    obtain ⟨last, hlast, hle⟩ := hfound height d hd
    refine ⟨last, ?_, hle⟩
    rw [← hdhash]
    exact hlast
  refine ⟨hpoints, hlast, ?_, ?_, ?_, ?_, ?_, ?_, ?_⟩
  · intro height b hlt hb hunique
    obtain ⟨last, hentry, -⟩ := hlast height b hlt hb
    obtain ⟨hltLast, b', hb', hhash'⟩ := hpoints _ _ hentry
    rw [hunique last b' hltLast hb' (Subtype.ext hhash')] at hentry
    exact hentry
  · intro k
    rw [hnextTx]
    refine (Files.by_rows htables.txs.byHash htables.txs.records k).trans ?_
    simp only [hashKeys, List.mem_singleton, tx]
  · intro k
    rw [hnextTx]
    refine (Files.by_rows htables.txs.byIdentifier htables.txs.records k).trans ?_
    simp only [identifierKeys, List.mem_map, tx, eq_comm]
  · intro k
    rw [hnextEvent]
    refine (Files.by_rows htables.events.byContract htables.events.records k).trans ?_
    simp only [contractEventKeys, List.mem_map, Option.mem_toList, eventAt, eq_comm]
  · intro k
    rw [hnextEvent]
    refine (Files.by_rows htables.events.dust htables.events.records k).trans ?_
    refine exists_congr fun eventId => exists_congr fun r => and_congr_right fun _ =>
      and_congr_right fun _ => ?_
    rw [dustEventKeys]
    split
    · rename_i hdust
      rw [List.mem_singleton, and_iff_right hdust]
    · rename_i hother
      exact iff_of_false List.not_mem_nil (fun hk => hother hk.1)
  · intro k
    rw [hnextAction]
    refine (Files.by_rows htables.actions.byAddr htables.actions.records k).trans ?_
    simp only [actionKeys, List.mem_singleton, actionAt]
  · rw [hnextTx, ← htables.txs.sameLength]
    exact Indexed.ids htables.txs.walletTxIndices

theorem Run.backReferences (h : Run blocks s ids) (hc : Consecutive blocks)
    (hcount : ∀ d ∈ blocks, CountsFit d) : BackReferences s := by
  obtain ⟨hnextTx, hnextAction, hnextEvent⟩ := Run.nextIds h hc
  have htables := h.holds.tables
  have hshared := logOf_shared hcount
  have hordered := logOf_ordered hc hcount
  refine ⟨?_, ?_, ?_⟩
  · intro txId r hlt hr
    rw [hnextTx] at hlt
    rw [tx, Indexed.get_of_lt htables.txs.records hlt] at hr
    obtain ⟨b, hb, hid, hindex⟩ := hordered.txOwner txId r hr
    exact ⟨b, Indexed.get_of_some (h.cursor hc).records hb, hid, hindex⟩
  · intro eventId r hlt hr
    rw [hnextEvent] at hlt
    rw [eventAt, Indexed.get_of_lt htables.events.records hlt] at hr
    obtain ⟨t, ht, hid, hheight⟩ := hshared.eventOwner eventId r hr
    exact ⟨t, Indexed.get_of_some htables.txs.records ht, hid, hheight⟩
  · intro actionId r hlt hr
    rw [hnextAction] at hlt
    rw [actionAt, Indexed.get_of_lt htables.actions.records hlt] at hr
    obtain ⟨t, ht, hid, hheight⟩ := hshared.actionOwner actionId r hr
    exact ⟨t, Indexed.get_of_some htables.txs.records ht, hid, hheight⟩

end Run

end Store

end Nightfrost.DenseIds
