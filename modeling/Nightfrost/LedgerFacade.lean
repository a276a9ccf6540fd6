import Nightfrost.IndexBlock
import Nightfrost.LedgerEvents

namespace Nightfrost.LedgerFacade

open ByteOrder Domain ExceptFold DustEvents LedgerEvents IndexBlock

structure SyntheticCost where
  readTime : Nat
  computeTime : Nat
  blockUsage : Nat
  bytesWritten : Nat
  bytesChurned : Nat
  deriving DecidableEq

def SyntheticCost.zero : SyntheticCost := ⟨0, 0, 0, 0, 0⟩

structure NormalizedCost (F : Type) where
  readTime : F
  computeTime : F
  blockUsage : F
  bytesWritten : F
  bytesChurned : F

structure CostModel where
  Fixed : Type
  max : Fixed → Fixed → Fixed
  add : SyntheticCost → SyntheticCost → SyntheticCost
  normalize : SyntheticCost → SyntheticCost → Option (NormalizedCost Fixed)

structure OutputInstruction where
  amount : Nat
  targetAddress : ByteArr 32
  nonce : ByteArr 32
  amount_lt : amount < 2 ^ 128

structure UtxoOutput where
  value : Nat
  owner : ByteArr 32
  tokenType : ByteArr 32
  value_lt : value < 2 ^ 128

structure UtxoSpend where
  value : Nat
  owner : Bytes
  tokenType : ByteArr 32
  intentHash : ByteArr 32
  outputNo : Nat
  value_lt : value < 2 ^ 128
  outputNo_lt : outputNo < 2 ^ 32

/-- The part of a transaction that a party has bound to a segment. Its hash depends on
the segment. -/
structure Intent where
  intentHash : Nat → ByteArr 32
  guaranteedOutputs : List UtxoOutput
  fallibleOutputs : List UtxoOutput
  guaranteedInputs : List UtxoSpend
  fallibleInputs : List UtxoSpend

structure StandardTransaction where
  segments : List Nat
  intents : List (Nat × Intent)

structure ClaimRewards where
  value : Nat
  owner : Bytes
  nonce : ByteArr 32
  value_lt : value < 2 ^ 128

inductive CrateTransaction
  | standard (transaction : StandardTransaction)
  | claimRewards (claim : ClaimRewards)

inductive CrateSystemTransaction
  | payFromTreasuryUnshielded (outputs : List OutputInstruction) (tokenType : ByteArr 32)
  | other (payload : Bytes)

@[ext] structure LedgerUtxo where
  value : Nat
  owner : ByteArr 32
  tokenType : ByteArr 32
  intentHash : ByteArr 32
  outputNo : Nat
  value_lt : value < 2 ^ 128
  outputNo_lt : outputNo < 2 ^ 32

instance : DecidableEq LedgerUtxo := fun _ _ => decidable_of_iff _ LedgerUtxo.ext_iff.symm

/-- The result of a transaction with its events. A failed one has none. -/
inductive CrateResult (lib : DustLib)
  | success (events : List (Event lib))
  | partialSuccess (segments : List (Nat × Bool)) (events : List (Event lib))
  | failure

structure BlockContext where
  tblock : Nat
  tblockErr : Nat
  parentBlockHash : ByteArr 32
  lastBlockTime : Nat

structure LedgerCrate (m : CostModel) (S : Type) where
  lib : DustLib
  Verified : Type
  new : S
  fromGenesis : Bytes → Except String S
  root : S → Except String Bytes
  zswapFirstFree : S → Nat
  zswapRoot : S → Bytes
  deserializeTransaction : Bytes → Except String CrateTransaction
  cost : S → CrateTransaction → Except String SyntheticCost
  fees : S → CrateTransaction → Except String Nat
  overallCost : S → NormalizedCost m.Fixed → Nat
  wellFormed : S → CrateTransaction → Nat → Except String Verified
  apply : S → Verified → BlockContext → S × CrateResult lib
  deserializeSystemTransaction : Bytes → Except String CrateSystemTransaction
  systemCost : S → CrateSystemTransaction → SyntheticCost
  applySystemTx : S → CrateSystemTransaction → Nat → Except String (S × List (Event lib))
  blockLimits : S → SyntheticCost
  postBlockUpdate : S → Nat → NormalizedCost m.Fixed → m.Fixed → Except String S
  userAddress : Bytes → ByteArr 32
  mkIntentHash : OutputInstruction → ByteArr 32 → ByteArr 32
  persistentCommit : Nat → ByteArr 32 → ByteArr 32
  nightIndices : S → ByteArr 32 → Bool
  ctime : S → LedgerUtxo → Option Nat

def timestamp (blockTimestamp : Nat) : Nat := blockTimestamp / 1000

def other {α : Type} (what : String) : Except String α → Except LedgerError α
  | .ok a => .ok a
  | .error message => .error (.other (what ++ ": " ++ message))

def malformed {α : Type} : Except String α → Except LedgerError α
  | .ok a => .ok a
  | .error message => .error (.malformedTransaction message)

variable {m : CostModel} {S : Type}

section Utxos

variable (crate : LedgerCrate m S) (state : S)

def makeInitialNonce (outputIndex : Nat) (intentHash : ByteArr 32) : ByteArr 32 :=
  crate.persistentCommit outputIndex intentHash

def registeredForDustGeneration (outputIndex : Nat) (intentHash : ByteArr 32) : Bool :=
  crate.nightIndices state (crate.persistentCommit outputIndex intentHash)

def unshieldedUtxo (utxo : LedgerUtxo) : UnshieldedUtxo where
  owner := utxo.owner
  tokenType := utxo.tokenType
  value := utxo.value
  intentHash := utxo.intentHash
  outputIndex := utxo.outputNo
  ctime := crate.ctime state utxo
  initialNonce := makeInitialNonce crate utxo.outputNo utxo.intentHash
  registeredForDustGeneration := registeredForDustGeneration crate state utxo.outputNo utxo.intentHash
  value_lt := utxo.value_lt
  outputIndex_lt := utxo.outputNo_lt

def createdUtxo (intentHash : ByteArr 32) (output : UtxoOutput × Nat) : LedgerUtxo where
  value := output.1.value
  owner := output.1.owner
  tokenType := output.1.tokenType
  intentHash
  outputNo := output.2 % 2 ^ 32
  value_lt := output.1.value_lt
  outputNo_lt := Nat.mod_lt _ (Nat.two_pow_pos 32)

def spentUtxo (spend : UtxoSpend) : LedgerUtxo where
  value := spend.value
  owner := crate.userAddress spend.owner
  tokenType := spend.tokenType
  intentHash := spend.intentHash
  outputNo := spend.outputNo
  value_lt := spend.value_lt
  outputNo_lt := spend.outputNo_lt

def extendUnshieldedUtxos (utxos : List UnshieldedUtxo × List UnshieldedUtxo) (segmentId : Nat)
    (intent : Intent) (guaranteed : Bool) : List UnshieldedUtxo × List UnshieldedUtxo :=
  let intentHash := intent.intentHash segmentId
  let intentOutputs := if guaranteed then intent.guaranteedOutputs else intent.fallibleOutputs
  let intentInputs := if guaranteed then intent.guaranteedInputs else intent.fallibleInputs
  (utxos.1 ++ intentOutputs.zipIdx.map fun output => unshieldedUtxo crate state (createdUtxo intentHash output),
    utxos.2 ++ intentInputs.map fun spend => unshieldedUtxo crate state (spentUtxo crate spend))

def successfulSegments (transaction : StandardTransaction) : TransactionResult → List Nat
  | .success => transaction.segments
  | .partialSuccess segments => segments.filterMap fun s => if s.2 then some s.1 else none
  | .failure => []

/-- The guaranteed phase of all intents, or the fallible phase of a segment's own. -/
def extendBySegment (transaction : StandardTransaction) (result : TransactionResult)
    (utxos : List UnshieldedUtxo × List UnshieldedUtxo) (segment : Nat) :
    List UnshieldedUtxo × List UnshieldedUtxo :=
  if segment = 0 then
    transaction.intents.foldl
      (fun utxos entry => extendUnshieldedUtxos crate state utxos segment entry.2 true) utxos
  else
    match transaction.intents.lookup segment with
    | some intent =>
        if segment ∈ successfulSegments transaction result then
          extendUnshieldedUtxos crate state utxos segment intent false
        else utxos
    | none => utxos

def night : ByteArr 32 := .filled 32 0

def claimedUtxo (claim : ClaimRewards) : LedgerUtxo :=
  let owner := crate.userAddress claim.owner
  { value := claim.value
    owner
    tokenType := night
    intentHash := crate.mkIntentHash ⟨claim.value, owner, claim.nonce, claim.value_lt⟩ night
    outputNo := 0
    value_lt := claim.value_lt
    outputNo_lt := Nat.two_pow_pos 32 }

def makeUnshieldedUtxosForRegularTransaction (transaction : CrateTransaction)
    (result : TransactionResult) : List UnshieldedUtxo × List UnshieldedUtxo :=
  if result = .failure then ([], [])
  else
    match transaction with
    | .standard transaction =>
        transaction.segments.foldl (extendBySegment crate state transaction result) ([], [])
    | .claimRewards claim => ([unshieldedUtxo crate state (claimedUtxo crate claim)], [])

section

variable {crate} {state} {result : TransactionResult}

theorem utxos_failed (transaction : CrateTransaction) :
    makeUnshieldedUtxosForRegularTransaction crate state transaction .failure = ([], []) := if_pos rfl

theorem utxos_standard (h : result ≠ .failure) (transaction : StandardTransaction) :
    makeUnshieldedUtxosForRegularTransaction crate state (.standard transaction) result =
      transaction.segments.foldl (extendBySegment crate state transaction result) ([], []) := if_neg h

theorem utxos_claimRewards (h : result ≠ .failure) (claim : ClaimRewards) :
    makeUnshieldedUtxosForRegularTransaction crate state (.claimRewards claim) result =
      ([unshieldedUtxo crate state (claimedUtxo crate claim)], []) := if_neg h

end

def paidUtxo (tokenType : ByteArr 32) (output : OutputInstruction × Nat) : LedgerUtxo where
  value := output.1.amount
  owner := output.1.targetAddress
  tokenType
  intentHash := crate.mkIntentHash output.1 tokenType
  outputNo := output.2 % 2 ^ 32
  value_lt := output.1.amount_lt
  outputNo_lt := Nat.mod_lt _ (Nat.two_pow_pos 32)

def makeUnshieldedUtxosForSystemTransaction : CrateSystemTransaction → List UnshieldedUtxo
  | .payFromTreasuryUnshielded outputs tokenType =>
      outputs.zipIdx.map fun output => unshieldedUtxo crate state (paidUtxo crate tokenType output)
  | .other _ => []

end Utxos

section Apply

variable (crate : LedgerCrate m S)

def feesV8 (state : S) (transaction : CrateTransaction) (_ : SyntheticCost) : Except String Nat :=
  crate.fees state transaction

def feesV9 (state : S) (_ : CrateTransaction) (cost : SyntheticCost) : Except String Nat :=
  match m.normalize cost (crate.blockLimits state) with
  | some normalized => .ok (crate.overallCost state normalized)
  | none => .error "BlockLimitExceeded"

/-- The result, the events and whether the cost counts: that of a failed transaction
does not. -/
def splitResult {lib : DustLib} : CrateResult lib → TransactionResult × List (Event lib) × Bool
  | .success events => (.success, events, true)
  | .partialSuccess segments events => (.partialSuccess segments, events, true)
  | .failure => (.failure, [], false)

abbrev Filled (S : Type) := S × SyntheticCost

/-- What the versions have in common. The state changes only where all went well. -/
def applyRegularTransaction (name : String)
    (fees : S → CrateTransaction → SyntheticCost → Except String Nat)
    (makeEvents : List (Event crate.lib) → Except String (List LedgerEvent)) (filled : Filled S)
    (raw : Bytes) (parentBlockHash : ByteArr 32)
    (blockTimestamp parentBlockTimestamp wellFormedTimestamp : Nat) :
    Except LedgerError (ApplyRegularTransactionOutcome × Filled S) := do
  let transaction ← other name (crate.deserializeTransaction raw)
  let cx : BlockContext :=
    { tblock := timestamp blockTimestamp
      tblockErr := 30
      parentBlockHash
      lastBlockTime := timestamp parentBlockTimestamp }
  let cost ← other "cost" (crate.cost filled.1 transaction)
  let fees ← other "cost" (fees filled.1 transaction cost)
  let verified ← malformed (crate.wellFormed filled.1 transaction (timestamp wellFormedTimestamp))
  let (state, result) := crate.apply filled.1 verified cx
  let (transactionResult, events, shouldCountCost) := splitResult result
  let blockFullness := if shouldCountCost then m.add filled.2 cost else filled.2
  let (created, spent) :=
    makeUnshieldedUtxosForRegularTransaction crate state transaction transactionResult
  let ledgerEvents ← other "events" (makeEvents events)
  .ok ({ transactionResult
         createdUnshieldedUtxos := created
         spentUnshieldedUtxos := spent
         ledgerEvents
         fees }, (state, blockFullness))

def applySystemTransaction (name : String)
    (makeEvents : List (Event crate.lib) → Except String (List LedgerEvent)) (filled : Filled S)
    (raw : Bytes) (blockTimestamp : Nat) :
    Except LedgerError (ApplySystemTransactionOutcome × Filled S) := do
  let transaction ← other name (crate.deserializeSystemTransaction raw)
  let cost := crate.systemCost filled.1 transaction
  let (state, events) ← other "system transaction"
    (crate.applySystemTx filled.1 transaction (timestamp blockTimestamp))
  let blockFullness := m.add filled.2 cost
  let created := makeUnshieldedUtxosForSystemTransaction crate state transaction
  let ledgerEvents ← other "events" (makeEvents events)
  .ok ({ createdUnshieldedUtxos := created, ledgerEvents }, (state, blockFullness))

def applyRegularTransactionV8 :=
  applyRegularTransaction crate "LedgerTransactionV8" (feesV8 crate) makeLedgerEventsV8

def applyRegularTransactionV9 :=
  applyRegularTransaction crate "LedgerTransactionV9" (feesV9 crate) makeLedgerEventsV9

def applySystemTransactionV8 := applySystemTransaction crate "SystemTransactionV8" makeLedgerEventsV8

def applySystemTransactionV9 := applySystemTransaction crate "SystemTransactionV9" makeLedgerEventsV9

def clamp (cost limits : SyntheticCost) : SyntheticCost where
  readTime := min cost.readTime limits.readTime
  computeTime := min cost.computeTime limits.computeTime
  blockUsage := min cost.blockUsage limits.blockUsage
  bytesWritten := min cost.bytesWritten limits.bytesWritten
  bytesChurned := min cost.bytesChurned limits.bytesChurned

/-- None is the panic of the `expect`. -/
def clampAndNormalize (cost limits : SyntheticCost) : Option (NormalizedCost m.Fixed) :=
  m.normalize (clamp cost limits) limits

def overallFullness (fullness : NormalizedCost m.Fixed) : m.Fixed :=
  m.max (m.max (m.max fullness.readTime fullness.computeTime) fullness.blockUsage)
    (m.max fullness.bytesWritten fullness.bytesChurned)

def finalizeApplyTransactions (filled : Filled S) (blockTimestamp : Nat) :
    Except LedgerError (Filled S) := do
  match clampAndNormalize filled.2 (crate.blockLimits filled.1) with
  | none => .error (.other "panicked: clamped cost normalises")
  | some normalized => do
      let state ← other "block limit exceeded"
        (crate.postBlockUpdate filled.1 (timestamp blockTimestamp) normalized (overallFullness normalized))
      .ok (state, .zero)

end Apply

section Outcomes

theorem other_ok {α : Type} {what : String} {x : Except String α} {a : α} :
    other what x = .ok a ↔ x = .ok a := by
  cases x <;> simp [other]

theorem malformed_ok {α : Type} {x : Except String α} {a : α} :
    malformed x = .ok a ↔ x = .ok a := by
  cases x <;> simp [malformed]

variable {crate : LedgerCrate m S} {name : String}
  {fees : S → CrateTransaction → SyntheticCost → Except String Nat}
  {makeEvents : List (Event crate.lib) → Except String (List LedgerEvent)} {filled filled' : Filled S}
  {raw : Bytes} {parentBlockHash : ByteArr 32} {ts parentTs wellFormedTs : Nat}
  {outcome : ApplyRegularTransactionOutcome}

theorem applyRegularTransaction_applied
    (h : applyRegularTransaction crate name fees makeEvents filled raw parentBlockHash ts parentTs
      wellFormedTs = .ok (outcome, filled')) :
    ∃ tx verified result, crate.wellFormed filled.1 tx (timestamp wellFormedTs) = .ok verified ∧
      crate.apply filled.1 verified ⟨timestamp ts, 30, parentBlockHash, timestamp parentTs⟩ =
        (filled'.1, result) ∧
      outcome.transactionResult = (splitResult result).1 ∧
      (outcome.createdUnshieldedUtxos, outcome.spentUnshieldedUtxos) =
        makeUnshieldedUtxosForRegularTransaction crate filled'.1 tx (splitResult result).1 := by
  obtain ⟨tx, -, h⟩ := bind_ok.mp h
  obtain ⟨cost, -, h⟩ := bind_ok.mp h
  obtain ⟨paid, -, h⟩ := bind_ok.mp h
  obtain ⟨verified, hverified, h⟩ := bind_ok.mp h
  rcases happly : crate.apply filled.1 verified ⟨timestamp ts, 30, parentBlockHash, timestamp parentTs⟩ with
    ⟨state', result⟩
  rw [happly] at h
  obtain ⟨events, -, h⟩ := bind_ok.mp h
  obtain ⟨rfl, rfl⟩ := Prod.mk.inj (Except.ok.inj h)
  exact ⟨tx, verified, result, malformed_ok.mp hverified, happly, rfl, rfl⟩

end Outcomes

inductive LedgerState (S8 S9 : Type)
  | v8 (filled : Filled S8)
  | v9 (filled : Filled S9)

section Facade

variable {S8 S9 : Type} (v8 : LedgerCrate m S8) (v9 : LedgerCrate m S9)

def LedgerState.onV8 {α : Type} (f : Except LedgerError (α × Filled S8)) :
    Except LedgerError (α × LedgerState S8 S9) := do
  let (a, filled) ← f
  .ok (a, .v8 filled)

def LedgerState.onV9 {α : Type} (f : Except LedgerError (α × Filled S9)) :
    Except LedgerError (α × LedgerState S8 S9) := do
  let (a, filled) ← f
  .ok (a, .v9 filled)

def LedgerState.new : LedgerVersion → LedgerState S8 S9
  | .v8 => .v8 (v8.new, .zero)
  | .v9 => .v9 (v9.new, .zero)

def LedgerState.fromGenesis (raw : Bytes) : LedgerVersion → Except LedgerError (LedgerState S8 S9)
  | .v8 => do
      let state ← other "GenesisLedgerStateV8" (v8.fromGenesis raw)
      .ok (.v8 (state, .zero))
  | .v9 => do
      let state ← other "GenesisLedgerStateV9" (v9.fromGenesis raw)
      .ok (.v9 (state, .zero))

def LedgerState.ledgerVersion : LedgerState S8 S9 → LedgerVersion
  | .v8 _ => .v8
  | .v9 _ => .v9

def LedgerState.root : LedgerState S8 S9 → Except LedgerError Bytes
  | .v8 filled => other "LedgerStateV8" (v8.root filled.1)
  | .v9 filled => other "LedgerStateV9" (v9.root filled.1)

def LedgerState.zswapFirstFree : LedgerState S8 S9 → Nat
  | .v8 filled => v8.zswapFirstFree filled.1
  | .v9 filled => v9.zswapFirstFree filled.1

def LedgerState.zswapMerkleTreeRoot : LedgerState S8 S9 → ZswapMerkleTreeRoot
  | .v8 filled => ⟨.v8, v8.zswapRoot filled.1⟩
  | .v9 filled => ⟨.v9, v9.zswapRoot filled.1⟩

def LedgerState.applyRegularTransaction (ledger : LedgerState S8 S9) (raw : Bytes)
    (parentBlockHash : ByteArr 32) (blockTimestamp parentBlockTimestamp wellFormedTimestamp : Nat) :
    Except LedgerError (ApplyRegularTransactionOutcome × LedgerState S8 S9) :=
  match ledger with
  | .v8 filled => LedgerState.onV8 (applyRegularTransactionV8 v8 filled raw parentBlockHash blockTimestamp
      parentBlockTimestamp wellFormedTimestamp)
  | .v9 filled => LedgerState.onV9 (applyRegularTransactionV9 v9 filled raw parentBlockHash blockTimestamp
      parentBlockTimestamp wellFormedTimestamp)

def LedgerState.applySystemTransaction (ledger : LedgerState S8 S9) (raw : Bytes) (blockTimestamp : Nat) :
    Except LedgerError (ApplySystemTransactionOutcome × LedgerState S8 S9) :=
  match ledger with
  | .v8 filled => LedgerState.onV8 (applySystemTransactionV8 v8 filled raw blockTimestamp)
  | .v9 filled => LedgerState.onV9 (applySystemTransactionV9 v9 filled raw blockTimestamp)

def LedgerState.finalizeApplyTransactions (ledger : LedgerState S8 S9) (blockTimestamp : Nat) :
    Except LedgerError (LedgerState S8 S9) :=
  match ledger with
  | .v8 filled => do
      let filled ← LedgerFacade.finalizeApplyTransactions v8 filled blockTimestamp
      .ok (.v8 filled)
  | .v9 filled => do
      let filled ← LedgerFacade.finalizeApplyTransactions v9 filled blockTimestamp
      .ok (.v9 filled)

def ledgerLibs (sha256 : Bytes → ByteArr 32)
    (contractBalances : Bytes → LedgerVersion → Option (List ContractBalance)) :
    LedgerLibs (LedgerState S8 S9) where
  new := fun version => .ok (LedgerState.new v8 v9 version)
  fromGenesis := LedgerState.fromGenesis v8 v9
  ledgerVersion := LedgerState.ledgerVersion
  root := LedgerState.root v8 v9
  zswapFirstFree := LedgerState.zswapFirstFree v8 v9
  zswapMerkleTreeRoot := LedgerState.zswapMerkleTreeRoot v8 v9
  applyRegularTransaction := LedgerState.applyRegularTransaction v8 v9
  applySystemTransaction := LedgerState.applySystemTransaction v8 v9
  finalizeApplyTransactions := LedgerState.finalizeApplyTransactions v8 v9
  sha256
  contractBalances

end Facade

end Nightfrost.LedgerFacade
