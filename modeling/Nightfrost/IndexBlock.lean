import Nightfrost.BlockRun

namespace Nightfrost.IndexBlock

open ByteOrder Tables Partitions Domain Schema WriteBlock Staging ExceptFold EntityLog BlockStep
  BlockRun

def mempoolTblockBumpMillis : Nat := 2 * 6000

inductive LedgerError
  | malformedTransaction (message : String)
  | other (message : String)

structure ApplyRegularTransactionOutcome where
  transactionResult : TransactionResult
  createdUnshieldedUtxos : List UnshieldedUtxo
  spentUnshieldedUtxos : List UnshieldedUtxo
  ledgerEvents : List LedgerEvent
  fees : Nat

structure ApplySystemTransactionOutcome where
  createdUnshieldedUtxos : List UnshieldedUtxo
  ledgerEvents : List LedgerEvent

/-- The ledger, the hash and the state decoder, which the pipeline takes from
libraries. A ledger state is changed by returning the next one. -/
structure LedgerLibs (L : Type) where
  new : LedgerVersion → Except LedgerError L
  fromGenesis : Bytes → LedgerVersion → Except LedgerError L
  ledgerVersion : L → LedgerVersion
  root : L → Except LedgerError Bytes
  zswapFirstFree : L → Nat
  zswapMerkleTreeRoot : L → ZswapMerkleTreeRoot
  applyRegularTransaction :
    L → Bytes → ByteArr 32 → Nat → Nat → Nat → Except LedgerError (ApplyRegularTransactionOutcome × L)
  applySystemTransaction : L → Bytes → Nat → Except LedgerError (ApplySystemTransactionOutcome × L)
  finalizeApplyTransactions : L → Nat → Except LedgerError L
  sha256 : Bytes → ByteArr 32
  contractBalances : Bytes → LedgerVersion → Option (List ContractBalance)

variable {L : Type}

def context {α : Type} (message : String) : Except LedgerError α → Except String α
  | .ok a => .ok a
  | .error _ => .error message

/-- A ledger state of another version than the block's is not translated, in
either direction. -/
def translate (libs : LedgerLibs L) (ledger : L) (version : LedgerVersion) : Except String L :=
  if libs.ledgerVersion ledger = version then .ok ledger else .error "translate ledger state"

section Transactions

def applyRegular (libs : LedgerLibs L) (ledger : L) (tx : RegularTransaction) (block : Block)
    (parentBlockTimestamp : Nat) (bumpTblock : Bool) :
    Except String (ApplyRegularTransactionOutcome × L) :=
  let message := "apply regular transaction " ++ hexEncode tx.hash.val
  let apply := libs.applyRegularTransaction ledger tx.raw block.parentHash block.timestamp
    parentBlockTimestamp
  if bumpTblock then
    match apply ((parentBlockTimestamp + mempoolTblockBumpMillis) % 2 ^ 64) with
    | .ok outcome => .ok outcome
    -- the retry at the plain timestamp, for blocks that the node itself got wrong
    | .error (.malformedTransaction _) => context message (apply block.timestamp)
    | .error (.other _) => .error message
  else context message (apply block.timestamp)

/-- An action with an empty state has failed: it has no balances and no hash. A
state that does not decode has no balances. -/
def contractActionOf (libs : LedgerLibs L) (block : Block) (ledgerVersion : LedgerVersion)
    (action : ContractAction) : Bytes × ContractActionRecord × Bytes :=
  let record : ContractActionRecord :=
    { address := action.address
      attributes := action.attributes
      stateHash := if action.state.isEmpty then none else some (libs.sha256 action.state)
      balances :=
        if action.state.isEmpty then [] else (libs.contractBalances action.state ledgerVersion).getD []
      txId := 0
      blockHeight := block.height }
  (action.address, record, action.state)

def applyTransaction (libs : LedgerLibs L) (ledger : L) (transaction : Transaction) (block : Block)
    (parentBlockTimestamp : Nat) (bumpTblock : Bool) : Except String (AppliedTransaction × L) :=
  let zswapStartIndex := libs.zswapFirstFree ledger
  let protocolVersion := block.protocolVersion.toU32
  match transaction with
  | .regular tx => do
      let (outcome, ledger) ← applyRegular libs ledger tx block parentBlockTimestamp bumpTblock
      let ledgerVersion := tx.protocolVersion.ledgerVersion
      .ok ({ hash := tx.hash
             protocolVersion
             zswapStartIndex
             zswapEndIndex := libs.zswapFirstFree ledger
             variant := .regular
             result := outcome.transactionResult
             fees := outcome.fees
             identifiers := tx.identifiers
             contractActions := tx.contractActions.map (contractActionOf libs block ledgerVersion)
             createdUtxos := outcome.createdUnshieldedUtxos
             spentUtxos := outcome.spentUnshieldedUtxos
             ledgerEvents := outcome.ledgerEvents
             raw := tx.raw }, ledger)
  | .system tx => do
      let (outcome, ledger) ← context ("apply system transaction " ++ hexEncode tx.hash.val)
        (libs.applySystemTransaction ledger tx.raw block.timestamp)
      .ok ({ hash := tx.hash
             protocolVersion
             zswapStartIndex
             zswapEndIndex := libs.zswapFirstFree ledger
             variant := .system
             result := .success
             fees := 0
             identifiers := []
             contractActions := []
             createdUtxos := outcome.createdUnshieldedUtxos
             spentUtxos := []
             ledgerEvents := outcome.ledgerEvents
             raw := tx.raw }, ledger)

structure Replay (L : Type) where
  ledgerState : L
  derived : List AppliedTransaction
  firstRegular : Bool

def replayTransaction (libs : LedgerLibs L) (block : Block) (parentBlockTimestamp : Nat)
    (replay : Replay L) (transaction : Transaction) : Except String (Replay L) := do
  let bumpTblock := decide (block.height > 0) && replay.firstRegular
  let (applied, ledgerState) ←
    applyTransaction libs replay.ledgerState transaction block parentBlockTimestamp bumpTblock
  let firstRegular := match transaction with
    | .regular _ => false
    | .system _ => replay.firstRegular
  .ok ⟨ledgerState, replay.derived ++ [applied], firstRegular⟩

end Transactions

section Blocks

/-- The state to apply the genesis transactions to and, where the genesis state
already has them in it, the state that the chain goes on from. -/
def genesisStates (libs : LedgerLibs L) (block : Block) (genesisLedgerState : Option Bytes)
    (ledger : L) : Except String (L × Option L) :=
  match genesisLedgerState with
  | none => .error "genesis block without genesis ledger state"
  | some raw => do
      let genesisState ← context "create ledger state from genesis"
        (libs.fromGenesis raw block.protocolVersion.ledgerVersion)
      let genesisRoot ← context "genesis state root" (libs.root genesisState)
      match block.ledgerStateRoot with
      | none => .error "genesis block without ledger state root"
      | some nodeRoot =>
          if nodeRoot = genesisRoot then .ok (ledger, some genesisState) else .ok (genesisState, none)

def startStates (libs : LedgerLibs L) (block : Block) (genesisLedgerState : Option Bytes)
    (ledger : L) : Except String (L × Option L) :=
  if block.height = 0 then do
    let fresh ← context "create ledger state" (libs.new block.protocolVersion.ledgerVersion)
    genesisStates libs block genesisLedgerState fresh
  else do
    let ledger ← translate libs ledger block.protocolVersion.ledgerVersion
    .ok (ledger, none)

def checkRoots (libs : LedgerLibs L) (block : Block) (ledger : L) : Except String Unit := do
  let ledgerStateRoot ← context "ledger state root" (libs.root ledger)
  let place := " for block " ++ hexEncode block.hash.val ++ " at height " ++ toString block.height
  if block.ledgerStateRoot.any (fun root => root ≠ ledgerStateRoot) then
    .error ("ledger state root mismatch" ++ place)
  else if libs.zswapMerkleTreeRoot ledger ≠ block.zswapMerkleTreeRoot then
    .error ("zswap state root mismatch" ++ place)
  else .ok ()

/-- `index_block` up to the persist: the derived transactions, the next ledger
state and the timestamp that the next block takes for its parent's. -/
def replayBlock (libs : LedgerLibs L) (block : Block) (genesisLedgerState : Option Bytes) (ledger : L)
    (parentBlockTimestamp : Nat) : Except String (List AppliedTransaction × L × Nat) := do
  let (ledger, genesisState) ← startStates libs block genesisLedgerState ledger
  let parentBlockTimestamp := if parentBlockTimestamp = 0 then block.timestamp else parentBlockTimestamp
  let replay ← block.transactions.foldlM (replayTransaction libs block parentBlockTimestamp)
    ⟨ledger, [], true⟩
  let ledger ← context "finalize transaction application"
    (libs.finalizeApplyTransactions replay.ledgerState block.timestamp)
  let ledger := genesisState.getD ledger
  checkRoots libs block ledger
  .ok (replay.derived, ledger, block.timestamp)

end Blocks

section Derived

variable {libs : LedgerLibs L} {block : Block} {ledger ledger' : L} {applied : AppliedTransaction}

/-- The hash of each action's record is that of its state. -/
def Hashed (sha256 : Bytes → ByteArr 32) (applied : AppliedTransaction) : Prop :=
  ∀ action ∈ applied.contractActions,
    action.2.1.stateHash = if action.2.2.isEmpty then none else some (sha256 action.2.2)

theorem applyTransaction_actions {transaction : Transaction} {parentBlockTimestamp : Nat}
    {bumpTblock : Bool}
    (h : applyTransaction libs ledger transaction block parentBlockTimestamp bumpTblock =
      .ok (applied, ledger')) :
    ∃ (ledgerVersion : LedgerVersion) (actions : List ContractAction),
      applied.contractActions = actions.map (contractActionOf libs block ledgerVersion) := by
  cases transaction with
  | regular tx =>
      obtain ⟨outcome, -, happlied⟩ := bind_ok.mp h
      obtain rfl := congrArg Prod.fst (Except.ok.inj happlied)
      exact ⟨_, _, rfl⟩
  | system tx =>
      obtain ⟨outcome, -, happlied⟩ := bind_ok.mp h
      obtain rfl := congrArg Prod.fst (Except.ok.inj happlied)
      exact ⟨.oldest, [], rfl⟩

theorem applyTransaction_derived {transaction : Transaction} {parentBlockTimestamp : Nat}
    {bumpTblock : Bool}
    (h : applyTransaction libs ledger transaction block parentBlockTimestamp bumpTblock =
      .ok (applied, ledger')) : Derived block.height applied ∧ Hashed libs.sha256 applied := by
  obtain ⟨ledgerVersion, actions, hactions⟩ := applyTransaction_actions h
  constructor
  · intro action haction
    rw [hactions] at haction
    obtain ⟨source, -, rfl⟩ := List.mem_map.mp haction
    exact ⟨rfl, rfl⟩
  · intro action haction
    rw [hactions] at haction
    obtain ⟨source, -, rfl⟩ := List.mem_map.mp haction
    rfl

theorem replayBlock_derived {genesisLedgerState : Option Bytes}
    {parentBlockTimestamp parentBlockTimestamp' : Nat} {transactions : List AppliedTransaction}
    (h : replayBlock libs block genesisLedgerState ledger parentBlockTimestamp =
      .ok (transactions, ledger', parentBlockTimestamp')) :
    transactions.length = block.transactions.length ∧
      ∀ applied ∈ transactions, Derived block.height applied ∧ Hashed libs.sha256 applied := by
  obtain ⟨start, -, hrest⟩ := bind_ok.mp h
  obtain ⟨replay, hloop, hrest⟩ := bind_ok.mp hrest
  obtain ⟨next, -, hrest⟩ := bind_ok.mp hrest
  obtain ⟨-, -, hrest⟩ := bind_ok.mp hrest
  obtain rfl := congrArg Prod.fst (Except.ok.inj hrest)
  refine foldlM_induct hloop (I := fun done r => r.derived.length = done.length ∧
    ∀ applied ∈ r.derived, Derived block.height applied ∧ Hashed libs.sha256 applied) ?_ ?_
  · exact ⟨rfl, fun _ happlied => absurd happlied List.not_mem_nil⟩
  · intro done transaction a b _ ha hb
    obtain ⟨entry, happly, hb⟩ := bind_ok.mp hb
    obtain rfl := Except.ok.inj hb
    constructor
    · rw [List.length_append, List.length_append, ha.1]
      rfl
    · intro applied happlied
      rcases List.mem_append.mp happlied with hold | hnew
      · exact ha.2 applied hold
      · obtain rfl := List.mem_singleton.mp hnew
        exact applyTransaction_derived happly

end Derived

section Runs

def writeBlockBatch (s : Store) (block : Block) (transactions : List AppliedTransaction)
    (ledgerStateKey : Bytes) (window : LedgerStateWindow) (ids : Counters) :
    Except String (StoreBatch × Counters) := do
  let st ← transactions.zipIdx.foldlM (writeTransaction s block.height) (Staged.start ids)
  let balances ← st.balanceDeltas.toList.foldlM (writeBalance s) st.batch
  .ok (blockBatch s block transactions ledgerStateKey window ids st balances, st.ids)

theorem writeBlockBatch_ok {s : Store} {block : Block} {transactions : List AppliedTransaction}
    {ledgerStateKey : Bytes} {window : LedgerStateWindow} {ids ids' : Counters} {batch : StoreBatch} :
    writeBlockBatch s block transactions ledgerStateKey window ids = .ok (batch, ids') ↔
      ∃ st balances,
        transactions.zipIdx.foldlM (writeTransaction s block.height) (Staged.start ids) = .ok st ∧
        st.balanceDeltas.toList.foldlM (writeBalance s) st.batch = .ok balances ∧
        batch = blockBatch s block transactions ledgerStateKey window ids st balances ∧
        ids' = st.ids := by
  simp only [writeBlockBatch, bind_ok, Except.ok.injEq, Prod.mk.injEq]
  constructor
  · rintro ⟨st, h, balances, hb, rfl, rfl⟩
    exact ⟨st, balances, h, hb, rfl, rfl⟩
  · rintro ⟨st, balances, h, hb, rfl, rfl⟩
    exact ⟨st, h, balances, hb, rfl, rfl⟩

theorem writeBlock_iff_batch {s s' : Store} {block : Block} {transactions : List AppliedTransaction}
    {ledgerStateKey : Bytes} {window : LedgerStateWindow} {ids ids' : Counters} :
    writeBlock s block transactions ledgerStateKey window ids = .ok (s', ids') ↔
      ∃ batch, writeBlockBatch s block transactions ledgerStateKey window ids = .ok (batch, ids') ∧
        s' = commit s batch := by
  rw [writeBlock_ok]
  constructor
  · rintro ⟨st, balances, hloop, htail, hs, hids⟩
    exact ⟨_, writeBlockBatch_ok.mpr ⟨st, balances, hloop, htail, rfl, hids⟩, hs⟩
  · rintro ⟨batch, hbatch, hs⟩
    obtain ⟨st, balances, hloop, htail, rfl, hids⟩ := writeBlockBatch_ok.mp hbatch
    exact ⟨st, balances, hloop, htail, hs, hids⟩

/-- A run of the indexer, with the batches that it has committed. Its ledger
states, and those of the runs before a restart, are arbitrary. -/
inductive Indexing (libs : LedgerLibs L) :
    List DerivedBlock → List StoreBatch → Store → Counters → Prop
  | start : Indexing libs [] [] fresh (Counters.load fresh)
  | step {blocks : List DerivedBlock} {batches : List StoreBatch} {s : Store} {ids ids' : Counters}
      {batch : StoreBatch} (d : DerivedBlock) (genesisLedgerState : Option Bytes) (ledger ledger' : L)
      (parentBlockTimestamp parentBlockTimestamp' : Nat) (ledgerStateKey : Bytes)
      (window : LedgerStateWindow) (h : Indexing libs blocks batches s ids)
      (hroom : Room ids d.transactions)
      (hreplay : replayBlock libs d.block genesisLedgerState ledger parentBlockTimestamp =
        .ok (d.transactions, ledger', parentBlockTimestamp'))
      (hbatch : writeBlockBatch s d.block d.transactions ledgerStateKey window ids =
        .ok (batch, ids')) :
      Indexing libs (blocks ++ [d]) (batches ++ [batch]) (commit s batch) ids'
  | scan {blocks : List DerivedBlock} {batches : List StoreBatch} {s s' : Store} {ids : Counters}
      (h : Indexing libs blocks batches s ids) (hscan : ∀ p, p ∉ walletParts → s' p = s p) :
      Indexing libs blocks batches s' ids

variable {libs : LedgerLibs L} {blocks : List DerivedBlock} {batches : List StoreBatch} {s : Store}
  {ids : Counters}

theorem Indexing.run (h : Indexing libs blocks batches s ids) : Run blocks s ids := by
  induction h with
  | start => exact .start
  | step d genesisLedgerState ledger ledger' ts ts' ledgerStateKey window h hroom hreplay hbatch ih =>
      exact ih.step d ledgerStateKey window hroom (writeBlock_iff_batch.mpr ⟨_, hbatch, rfl⟩)
  | scan h hscan ih => exact ih.scan hscan

theorem Indexing.hashed (h : Indexing libs blocks batches s ids) :
    ∀ d ∈ blocks, ∀ applied ∈ d.transactions, Hashed libs.sha256 applied := by
  induction h with
  | start => exact fun d hd => absurd hd List.not_mem_nil
  | step d genesisLedgerState ledger ledger' ts ts' ledgerStateKey window h hroom hreplay hbatch ih =>
      intro e he applied happlied
      rcases List.mem_append.mp he with he | he
      · exact ih e he applied happlied
      · obtain rfl := List.mem_singleton.mp he
        exact ((replayBlock_derived hreplay).2 applied happlied).2
  | scan h hscan ih => exact ih

end Runs

section Samples

/-- The SHA-256 of the states `[1]` and `[7]`, and of the empty state. -/
def oneDigest : ByteArr 32 :=
  ⟨[75, 245, 18, 47, 52, 69, 84, 197, 59, 222, 46, 187, 140, 210, 183, 227,
    209, 96, 10, 214, 49, 195, 133, 165, 215, 204, 226, 60, 119, 133, 69, 154], rfl⟩

def sevenDigest : ByteArr 32 :=
  ⟨[202, 53, 135, 88, 246, 210, 126, 108, 244, 82, 114, 147, 121, 119, 167, 72,
    253, 136, 57, 29, 182, 121, 206, 218, 125, 199, 191, 31, 0, 94, 232, 121], rfl⟩

def emptyDigest : ByteArr 32 :=
  ⟨[227, 176, 196, 66, 152, 252, 28, 20, 154, 251, 244, 200, 153, 111, 185, 36,
    39, 174, 65, 228, 100, 155, 147, 76, 164, 149, 153, 27, 120, 82, 184, 85], rfl⟩

def sampleSha256 (bytes : Bytes) : ByteArr 32 :=
  if bytes = [1] then oneDigest else if bytes = [7] then sevenDigest else emptyDigest

end Samples

end Nightfrost.IndexBlock
