import Nightfrost.BlockStep

namespace Nightfrost.BlockRun

open ByteOrder Tables Partitions Domain Schema WriteBlock Staging ExceptFold EntityLog BlockStep

structure DerivedBlock where
  block : Block
  transactions : List AppliedTransaction
  derived : ∀ applied ∈ transactions, Derived block.height applied

def emptyBlock (height : Nat) (h : height < 2 ^ 64) : Block where
  hash := .filled 32 (UInt8.ofNat height)
  height
  protocolVersion := .v1_0 1000000
  parentHash := .filled 32 (UInt8.ofNat (height - 1))
  author := none
  timestamp := 0
  zswapMerkleTreeRoot := ⟨.v8, []⟩
  ledgerStateRoot := none
  transactions := []
  dustRegistrationEvents := []
  height_lt := h
  timestamp_lt := zero_lt_u64

def emptyTransaction : AppliedTransaction where
  hash := .filled 32 0
  protocolVersion := 1000000
  zswapStartIndex := 0
  zswapEndIndex := 0
  variant := .regular
  result := .success
  fees := 0
  identifiers := []
  contractActions := []
  createdUtxos := []
  spentUtxos := []
  ledgerEvents := []
  raw := []

def zswapEvent : LedgerEvent where
  grouping := .zswap
  raw := []
  attributes := .zswapOutput
  contractActionId := none
  contractAddress := none

def dustEvent : LedgerEvent where
  grouping := .dust
  raw := []
  attributes := .dustSpendProcessed [] []
  contractActionId := none
  contractAddress := none

/-- The partitions that the API writes, to note how far it has scanned for a wallet. -/
def walletParts : List Part := [.walletRelevantTxs, .walletScanProgress]

/-- A store written by a run of the pipeline over a list of blocks, from an
empty data directory, while the API scans for its wallets. Its chain has fewer
than `2 ^ 64` of everything that gets an id. -/
inductive Run : List DerivedBlock → Store → Counters → Prop
  | start : Run [] fresh (Counters.load fresh)
  | step {blocks : List DerivedBlock} {s s' : Store} {ids ids' : Counters} (d : DerivedBlock)
      (ledgerStateKey : Bytes) (window : LedgerStateWindow) (h : Run blocks s ids)
      (hroom : Room ids d.transactions)
      (hblock : writeBlock s d.block d.transactions ledgerStateKey window ids = .ok (s', ids')) :
      Run (blocks ++ [d]) s' ids'
  | scan {blocks : List DerivedBlock} {s s' : Store} {ids : Counters} (h : Run blocks s ids)
      (hscan : ∀ p, p ∉ walletParts → s' p = s p) : Run blocks s' ids

/-- The node hands out the blocks in the order of their heights, from genesis. -/
def Consecutive (blocks : List DerivedBlock) : Prop :=
  ∀ (i : Nat) (d : DerivedBlock), blocks[i]? = some d → d.block.height = i

def logOf (blocks : List DerivedBlock) : ChainLog :=
  blocks.foldl (fun log d => log.addBlock d.block d.transactions) ChainLog.empty

@[simp] theorem logOf_push (blocks : List DerivedBlock) (d : DerivedBlock) :
    logOf (blocks ++ [d]) = (logOf blocks).addBlock d.block d.transactions := by
  simp [logOf]

theorem logOf_replay {P : ChainLog → List AppliedTransaction → Prop} {blocks : List DerivedBlock}
    (hempty : P .empty [])
    (hblocks : ∀ log applied records, P log applied → P { log with blocks := records } applied)
    (hstep : ∀ d ∈ blocks, ∀ entry ∈ d.transactions.zipIdx, ∀ log applied, P log applied →
      P (log.addTransaction d.block.height entry) (applied ++ [entry.1])) :
    P (logOf blocks) (blocks.flatMap DerivedBlock.transactions) := by
  induction blocks using List.reverseRecOn with
  | nil => exact hempty
  | append_singleton blocks d ih =>
      have hlast := hstep d (List.mem_append_right _ List.mem_cons_self)
      have hloop : ∀ entries : List (AppliedTransaction × Nat), (∀ e ∈ entries, e ∈ d.transactions.zipIdx) →
          ∀ log applied, P log applied →
            P (entries.foldl (ChainLog.addTransaction d.block.height) log)
              (applied ++ entries.map Prod.fst) := by
        intro entries hsub
        induction entries with
        | nil =>
            intro log applied h
            rw [List.map_nil, List.append_nil]
            exact h
        | cons entry entries ihe =>
            intro log applied h
            rw [List.map_cons, List.append_cons]
            exact ihe (fun e he => hsub e (List.mem_cons_of_mem _ he)) _ _
              (hlast entry (hsub entry List.mem_cons_self) log applied h)
      have hprev := ih fun e he => hstep e (List.mem_append_left _ he)
      have hnext := hloop d.transactions.zipIdx (fun _ he => he) _ _ hprev
      rw [List.zipIdx_map_fst] at hnext
      rw [logOf_push, List.flatMap_append, List.flatMap_singleton]
      exact hblocks _ _ _ hnext

theorem logOf_induct {P : ChainLog → Prop} {blocks : List DerivedBlock} (hempty : P .empty)
    (hblocks : ∀ log records, P log → P { log with blocks := records })
    (hstep : ∀ d ∈ blocks, ∀ entry ∈ d.transactions.zipIdx, ∀ log, P log →
      P (log.addTransaction d.block.height entry)) : P (logOf blocks) :=
  logOf_replay (P := fun log _ => P log) hempty (fun log _ => hblocks log)
    (fun d hd entry he log _ => hstep d hd entry he log)

theorem Consecutive.earlier {blocks more : List DerivedBlock} (h : Consecutive (blocks ++ more)) :
    Consecutive blocks := by
  intro i d hd
  apply h i d
  rwa [List.getElem?_append_left (List.getElem?_eq_some_iff.mp hd).1]

theorem Consecutive.of_push {blocks : List DerivedBlock} {d : DerivedBlock}
    (h : Consecutive (blocks ++ [d])) : Consecutive blocks ∧ d.block.height = blocks.length := by
  exact ⟨h.earlier, h _ _ (by simp)⟩

structure Holds (s : Store) (ids : Counters) (log : ChainLog) : Prop where
  counters : ids = log.counters
  tables : LogTables s log
  addrTxs : IndexOf (s .addrTxs) log.txs addressKeys

theorem Holds.start : Holds fresh (Counters.load fresh) ChainLog.empty where
  counters := by decide
  tables :=
    { actions := ⟨.empty, .empty _⟩
      events := ⟨.empty, .empty _, .empty _⟩
      txs := ⟨.empty, .empty _, .empty _, .empty, rfl⟩ }
  addrTxs := .empty _

theorem Holds.step {s s' : Store} {ids ids' : Counters} {log : ChainLog} {d : DerivedBlock}
    {ledgerStateKey : Bytes} {window : LedgerStateWindow} (h : Holds s ids log)
    (hroom : Room ids d.transactions)
    (hblock : writeBlock s d.block d.transactions ledgerStateKey window ids = .ok (s', ids')) :
    Holds s' ids' (log.addBlock d.block d.transactions) := by
  obtain ⟨st, balances, hloop, htail, rfl, rfl⟩ := writeBlock_ok.mp hblock
  obtain ⟨hids, htables, hfiles⟩ :=
    writeTransactions_tables hloop hroom d.derived h.counters h.tables h.addrTxs
  have hlog : LogTables (pending s st) (log.addBlock d.block d.transactions) :=
    ⟨htables.actions, htables.events,
      ⟨htables.txs.records, htables.txs.byHash, htables.txs.byIdentifier,
        htables.txs.walletTxIndices, htables.txs.sameLength⟩⟩
  refine ⟨hids, hlog.congr ?_, ?_⟩
  · intro p hp
    apply blockBatch_frame _ htail
    revert p
    decide
  · intro k
    exact (blockBatch_addrTxs hloop htail k).trans (hfiles k)

theorem Holds.congr {s s' : Store} {ids : Counters} {log : ChainLog} (h : Holds s ids log)
    (hs : ∀ p, p ∉ walletParts → s' p = s p) : Holds s' ids log where
  counters := h.counters
  tables := h.tables.congr (fun p hp => hs p (by revert p; decide))
  addrTxs := by rw [hs _ (by decide)]; exact h.addrTxs

theorem Run.holds {blocks : List DerivedBlock} {s : Store} {ids : Counters} (h : Run blocks s ids) :
    Holds s ids (logOf blocks) := by
  induction h with
  | start => exact Holds.start
  | step d ledgerStateKey window h hroom hblock ih => rw [logOf_push]; exact ih.step hroom hblock
  | scan h hscan ih => exact ih.congr hscan

theorem addBlock_counters (log : ChainLog) (block : Block) (transactions : List AppliedTransaction) :
    (log.addBlock block transactions).counters = idsAfter log.counters transactions := by
  have hloop := addTransactions_counters block.height transactions.zipIdx log
  rwa [List.zipIdx_map_fst] at hloop

theorem Run.room {blocks : List DerivedBlock} {s : Store} {ids : Counters} (h : Run blocks s ids) :
    Room ids [] := by
  induction h with
  | start => decide
  | @step blocks s s' ids ids' d ledgerStateKey window h hroom hblock ih =>
      have hids : ids' = idsAfter ids d.transactions := by
        rw [(h.holds.step hroom hblock).counters, addBlock_counters, ← h.holds.counters]
      rw [hids]
      exact ⟨hroom.txs, hroom.actions, hroom.events⟩
  | scan h hscan ih => exact ih

structure Cursor (s : Store) (ids : Counters) (blocks : List DerivedBlock) : Prop where
  records : Indexed (s .blocks) (logOf blocks).blocks
  lastHeight : lastIndexedHeight s = blocks.getLast?.map (fun d => d.block.height)
  timestamp : tipTimestamp s = blocks.getLast?.map (fun d => d.block.timestamp)
  counters : Counters.load s = ids

theorem logOf_blocks_length (blocks : List DerivedBlock) :
    (logOf blocks).blocks.length = blocks.length := by
  induction blocks using List.reverseRecOn with
  | nil => rfl
  | append_singleton blocks d ih => simp [ChainLog.addBlock, ih]

theorem logOf_block_bound (blocks : List DerivedBlock) :
    ∀ record ∈ (logOf blocks).blocks,
      record.firstTxId + record.txCount ≤ (logOf blocks).txs.length := by
  have hloop : ∀ (height : Nat) (entries : List (AppliedTransaction × Nat)) (log : ChainLog),
      (entries.foldl (ChainLog.addTransaction height) log).txs.length =
        log.txs.length + entries.length := by
    intro height entries
    induction entries with
    | nil => intro log; rfl
    | cons entry entries ih =>
        intro log
        rw [List.foldl_cons, ih, List.length_cons]
        simp [ChainLog.addTransaction, Nat.add_comm, Nat.add_left_comm]
  induction blocks using List.reverseRecOn with
  | nil => intro record hr; cases hr
  | append_singleton blocks d ih =>
      intro record hr
      have hlen : (logOf (blocks ++ [d])).txs.length =
          (logOf blocks).txs.length + d.transactions.length := by
        rw [logOf_push, ChainLog.addBlock, ChainLog.addTransactions, hloop, List.length_zipIdx]
      rw [logOf_push, ChainLog.addBlock] at hr
      rw [hlen]
      rcases List.mem_append.mp hr with hold | hnew
      · have := ih record hold
        omega
      · rw [List.mem_singleton.mp hnew]
        have := Nat.mod_le d.transactions.length (2 ^ 32)
        simp only [blockRecord]
        omega

theorem writeBlock_metadata {s s' : Store} {ids ids' : Counters} {block : Block}
    {transactions : List AppliedTransaction} {ledgerStateKey : Bytes} {window : LedgerStateWindow}
    (h : writeBlock s block transactions ledgerStateKey window ids = .ok (s', ids')) :
    lastIndexedHeight s' = some block.height ∧ tipTimestamp s' = some block.timestamp ∧
      Counters.load s' = ids' ∧ ledgerStateWindow s' =
        trimWindow (window ++ [(ledgerStateKey, block.protocolVersion.ledgerVersion)]) := by
  obtain ⟨st, balances, -, -, rfl, rfl⟩ := writeBlock_ok.mp h
  obtain ⟨base, hbase⟩ : ∃ base, commit s (blockBatch s block transactions ledgerStateKey window ids
      st balances) = commit base (metaOps block st.ids
        (trimWindow (window ++ [(ledgerStateKey, block.protocolVersion.ledgerVersion)]))) :=
    ⟨_, blockBatch_eq⟩
  rw [hbase]
  obtain ⟨h₁, h₂, h₃, h₄, h₅, h₆⟩ := metaOps_get (s := base) block st.ids
    (trimWindow (window ++ [(ledgerStateKey, block.protocolVersion.ledgerVersion)]))
  refine ⟨h₁, h₂, ?_, h₆⟩
  simp only [Counters.load, nextId, h₃, h₄, h₅, Option.getD_some]

theorem Run.cursor {blocks : List DerivedBlock} {s : Store} {ids : Counters} (h : Run blocks s ids)
    (hc : Consecutive blocks) : Cursor s ids blocks := by
  induction h with
  | start => exact ⟨.empty, by decide, by decide, rfl⟩
  | @step blocks s s' ids ids' d ledgerStateKey window h hroom hblock ih =>
      obtain ⟨hc', hheight⟩ := hc.of_push
      obtain ⟨hlast, htime, hids, -⟩ := writeBlock_metadata hblock
      refine ⟨?_, by simp [hlast], by simp [htime], hids⟩
      obtain ⟨st, balances, hloop, htail, rfl, rfl⟩ := writeBlock_ok.mp hblock
      have hpos : d.block.height = (logOf blocks).blocks.length := by
        rw [hheight, logOf_blocks_length]
      have hfirst : ids.nextTxId = (logOf blocks).txs.length := by rw [h.holds.counters]; rfl
      rw [blockBatch_blocks hloop htail, logOf_push, hpos, hfirst]
      exact (ih hc').records.push _ (hpos ▸ d.block.height_lt)
  | @scan blocks s s' ids h hscan ih =>
      have hmeta : s' .metadata = s .metadata := hscan _ (by decide)
      have hblocks : s' .blocks = s .blocks := hscan _ (by decide)
      obtain ⟨h₁, h₂, h₃, h₄⟩ := ih hc
      refine ⟨by rw [hblocks]; exact h₁, ?_, ?_, ?_⟩
      · rw [← h₂, lastIndexedHeight, metaU64, hmeta, lastIndexedHeight, metaU64]
      · rw [← h₃, tipTimestamp, metaU64, hmeta, tipTimestamp, metaU64]
      · rw [← h₄]
        simp only [Counters.load, nextId, metaU64, hmeta]

section Growth

/-- The log has grown by records of blocks whose heights satisfy `height`. -/
structure Grown (height : Nat → Prop) (log log' : ChainLog) : Prop where
  txs : ∃ new, log'.txs = log.txs ++ new ∧ ∀ record ∈ new, height record.blockHeight
  events : ∃ new, log'.events = log.events ++ new ∧ ∀ record ∈ new, height record.blockHeight
  actions : ∃ new, log'.actions = log.actions ++ new ∧ ∀ record ∈ new, height record.blockHeight
  walletTxIndices : ∃ new, log'.walletTxIndices = log.walletTxIndices ++ new

theorem Grown.refl (height : Nat → Prop) (log : ChainLog) : Grown height log log := by
  constructor <;> exact ⟨[], by simp⟩

theorem append_trans {α : Type} {p : α → Prop} {xs ys zs : List α}
    (h₁ : ∃ new, ys = xs ++ new ∧ ∀ a ∈ new, p a) (h₂ : ∃ new, zs = ys ++ new ∧ ∀ a ∈ new, p a) :
    ∃ new, zs = xs ++ new ∧ ∀ a ∈ new, p a := by
  obtain ⟨a, rfl, ha⟩ := h₁
  obtain ⟨b, rfl, hb⟩ := h₂
  refine ⟨a ++ b, List.append_assoc _ _ _, fun x hx => ?_⟩
  rcases List.mem_append.mp hx with h | h
  · exact ha x h
  · exact hb x h

theorem Grown.trans {height : Nat → Prop} {log₁ log₂ log₃ : ChainLog} (h : Grown height log₁ log₂)
    (h' : Grown height log₂ log₃) : Grown height log₁ log₃ where
  txs := append_trans h.txs h'.txs
  events := append_trans h.events h'.events
  actions := append_trans h.actions h'.actions
  walletTxIndices := by
    obtain ⟨a, ha⟩ := h.walletTxIndices
    obtain ⟨b, hb⟩ := h'.walletTxIndices
    exact ⟨a ++ b, by rw [hb, ha, List.append_assoc]⟩

theorem Grown.mono {p q : Nat → Prop} {log log' : ChainLog} (h : Grown p log log')
    (hpq : ∀ n, p n → q n) : Grown q log log' where
  txs := h.txs.imp fun _ hnew => ⟨hnew.1, fun r hr => hpq _ (hnew.2 r hr)⟩
  events := h.events.imp fun _ hnew => ⟨hnew.1, fun r hr => hpq _ (hnew.2 r hr)⟩
  actions := h.actions.imp fun _ hnew => ⟨hnew.1, fun r hr => hpq _ (hnew.2 r hr)⟩
  walletTxIndices := h.walletTxIndices

theorem addTransaction_grown {height : Nat} {applied : AppliedTransaction} (log : ChainLog)
    (index : Nat) (hd : Derived height applied) :
    Grown (fun n => n = height) log (log.addTransaction height (applied, index)) := by
  refine ⟨⟨_, rfl, ?_⟩, ⟨_, rfl, ?_⟩, ⟨_, rfl, ?_⟩, ⟨_, rfl⟩⟩
  · intro record hr
    rw [List.mem_singleton.mp hr]
    rfl
  · intro record hr
    obtain ⟨event, -, rfl⟩ := List.mem_map.mp hr
    rfl
  · intro record hr
    obtain ⟨action, ha, rfl⟩ := List.mem_map.mp hr
    exact (hd action ha).2

theorem addBlock_grown (log : ChainLog) (d : DerivedBlock) :
    Grown (fun n => n = d.block.height) log (log.addBlock d.block d.transactions) := by
  have hloop : Grown (fun n => n = d.block.height) log
      (log.addTransactions d.block.height d.transactions) := by
    have hsub : ∀ entry ∈ d.transactions.zipIdx, Derived d.block.height entry.1 :=
      fun entry he => d.derived _ (List.fst_mem_of_mem_zipIdx he)
    rw [ChainLog.addTransactions]
    generalize d.transactions.zipIdx = entries at hsub
    induction entries generalizing log with
    | nil => exact Grown.refl _ _
    | cons entry entries ih =>
        have hone := addTransaction_grown log entry.2 (hsub entry List.mem_cons_self)
        exact hone.trans (ih _ (fun e he => hsub e (List.mem_cons_of_mem _ he)))
  exact ⟨hloop.txs, hloop.events, hloop.actions, hloop.walletTxIndices⟩

theorem logOf_grown (blocks more : List DerivedBlock) :
    Grown (fun n => ∃ d ∈ more, d.block.height = n) (logOf blocks) (logOf (blocks ++ more)) := by
  induction more using List.reverseRecOn with
  | nil => rw [List.append_nil]; exact Grown.refl _ _
  | append_singleton more d ih =>
      rw [← List.append_assoc, logOf_push]
      refine (ih.mono ?_).trans ((addBlock_grown _ d).mono ?_)
      · rintro n ⟨e, he, rfl⟩
        exact ⟨e, List.mem_append_left _ he, rfl⟩
      · rintro n rfl
        exact ⟨d, by simp, rfl⟩

theorem Consecutive.grown {blocks more : List DerivedBlock} (h : Consecutive (blocks ++ more)) :
    Grown (fun n => blocks.length ≤ n) (logOf blocks) (logOf (blocks ++ more)) := by
  refine (logOf_grown blocks more).mono ?_
  rintro n ⟨d, hd, rfl⟩
  obtain ⟨i, hi⟩ := List.mem_iff_getElem?.mp hd
  rw [h (blocks.length + i) d (by rw [List.getElem?_append_right (by omega)]; simpa using hi)]
  omega

theorem Consecutive.heights {blocks : List DerivedBlock} (h : Consecutive blocks) :
    Grown (fun n => n < blocks.length) ChainLog.empty (logOf blocks) := by
  refine (logOf_grown [] blocks).mono ?_
  rintro n ⟨d, hd, rfl⟩
  obtain ⟨i, hi⟩ := List.mem_iff_getElem?.mp hd
  rw [h i d hi]
  exact (List.getElem?_eq_some_iff.mp hi).1

end Growth

end Nightfrost.BlockRun
