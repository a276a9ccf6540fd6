import Nightfrost.ByteOrder

namespace Nightfrost.Domain

open ByteOrder

/-- The fixed-size arrays of the source, `[u8; n]` and `ByteArray<n>`. -/
abbrev ByteArr (n : Nat) := {bytes : Bytes // bytes.length = n}

@[simp] theorem ByteArr.length_val {n : Nat} (a : ByteArr n) : List.length a.val = n := a.property

def ByteArr.filled (n : Nat) (b : UInt8) : ByteArr n := ⟨List.replicate n b, List.length_replicate⟩

inductive LedgerVersion
  | v8
  | v9
  deriving DecidableEq

def LedgerVersion.oldest : LedgerVersion := .v8

def LedgerVersion.latest : LedgerVersion := .v9

inductive ProtocolVersion
  | v0_22 (version : Nat)
  | v1_0 (version : Nat)
  | v2_0 (version : Nat)
  | v2_1 (version : Nat)
  deriving DecidableEq

def ProtocolVersion.ledgerVersion : ProtocolVersion → LedgerVersion
  | .v0_22 _ | .v1_0 _ => .v8
  | .v2_0 _ | .v2_1 _ => .v9

def ProtocolVersion.toU32 : ProtocolVersion → Nat
  | .v0_22 n | .v1_0 n | .v2_0 n | .v2_1 n => n

def ProtocolVersion.tryFrom (version : Nat) : Except String ProtocolVersion :=
  if 22000 ≤ version ∧ version < 23000 then .ok (.v0_22 version)
  else if 1000000 ≤ version ∧ version < 1001000 then .ok (.v1_0 version)
  else if 2000000 ≤ version ∧ version < 2001000 then .ok (.v2_0 version)
  else if 2001000 ≤ version ∧ version < 2002000 then .ok (.v2_1 version)
  else .error s!"unsupported protocol version {version}"

inductive TransactionResult
  | success
  | partialSuccess (segments : List (Nat × Bool))
  | failure
  deriving DecidableEq

inductive TransactionVariant
  | regular
  | system
  deriving DecidableEq

inductive ContractAttributes
  | deploy
  | call (entryPoint : String)
  | update
  deriving DecidableEq

structure ContractBalance where
  tokenType : ByteArr 32
  amount : Nat
  deriving DecidableEq

structure UnshieldedUtxo where
  owner : ByteArr 32
  tokenType : ByteArr 32
  value : Nat
  intentHash : ByteArr 32
  outputIndex : Nat
  ctime : Option Nat
  initialNonce : ByteArr 32
  registeredForDustGeneration : Bool
  value_lt : value < 2 ^ 128
  outputIndex_lt : outputIndex < 2 ^ 32
  deriving DecidableEq

structure QualifiedDustOutput where
  initialValue : Nat
  owner : Bytes
  nonce : ByteArr 32
  seq : Nat
  ctime : Nat
  backingNight : ByteArr 32
  mtIndex : Nat
  deriving DecidableEq

structure DustGenerationInfo where
  nightUtxoHash : ByteArr 32
  value : Nat
  owner : Bytes
  nonce : ByteArr 32
  ctime : Nat
  dtime : Nat
  deriving DecidableEq

inductive DustRegistrationEvent
  | registration (cardanoStakeKey : ByteArr 29) (dustAddress : Bytes)
  | deregistration (cardanoStakeKey : ByteArr 29) (dustAddress : Bytes)
  | mappingAdded (cardanoStakeKey : ByteArr 29) (dustAddress utxoId : Bytes) (utxoIndex : Nat)
  | mappingRemoved (cardanoStakeKey : ByteArr 29) (dustAddress utxoId : Bytes) (utxoIndex : Nat)
  deriving DecidableEq

inductive AddressOrContract
  | user (bytes : Bytes)
  | contract (bytes : Bytes)
  deriving DecidableEq

inductive LedgerEventGrouping
  | zswap
  | dust
  | contract
  deriving DecidableEq

inductive LedgerEventAttributes
  | zswapInput (nullifier : Bytes)
  | zswapOutput
  | paramChange
  | dustInitialUtxo (output : QualifiedDustOutput) (generationInfo : DustGenerationInfo)
      (generationIndex : Nat)
  | dustGenerationDtimeUpdate (generationInfo : DustGenerationInfo) (generationIndex : Nat)
      (treeInsertionPath : Bytes)
  | dustSpendProcessed (nullifier commitment : Bytes)
  | contractShieldedSpend (version : Nat) (entryPoint nullifier : Bytes)
  | contractShieldedReceive (version : Nat) (entryPoint commitment : Bytes)
      (ciphertext receivingContractAddress : Option Bytes)
  | contractShieldedMint (version : Nat) (entryPoint commitment domainSep : Bytes)
      (amount : Option String)
  | contractShieldedBurn (version : Nat) (entryPoint nullifier : Bytes) (amount : Option String)
  | contractUnshieldedSpend (version : Nat) (entryPoint : Bytes) (sender : AddressOrContract)
      (domainSep tokenType : Bytes) (amount : String)
  | contractUnshieldedReceive (version : Nat) (entryPoint : Bytes) (recipient : AddressOrContract)
      (domainSep tokenType : Bytes) (amount : String)
  | contractUnshieldedMint (version : Nat) (entryPoint domainSep tokenType : Bytes) (amount : String)
  | contractUnshieldedBurn (version : Nat) (entryPoint : Bytes) (sender : AddressOrContract)
      (tokenType : Bytes) (amount : String)
  | contractPaused (version : Nat) (entryPoint : Bytes)
  | contractUnpaused (version : Nat) (entryPoint : Bytes)
  | contractMisc (version : Nat) (entryPoint name payload : Bytes)
  deriving DecidableEq

def LedgerEventAttributes.contractEntryPoint : LedgerEventAttributes → Option Bytes
  | .contractShieldedSpend _ entryPoint _ | .contractShieldedReceive _ entryPoint _ _ _
  | .contractShieldedMint _ entryPoint _ _ _ | .contractShieldedBurn _ entryPoint _ _
  | .contractUnshieldedSpend _ entryPoint _ _ _ _ | .contractUnshieldedReceive _ entryPoint _ _ _ _
  | .contractUnshieldedMint _ entryPoint _ _ _ | .contractUnshieldedBurn _ entryPoint _ _ _
  | .contractPaused _ entryPoint | .contractUnpaused _ entryPoint
  | .contractMisc _ entryPoint _ _ => some entryPoint
  | _ => none

structure LedgerEvent where
  grouping : LedgerEventGrouping
  raw : Bytes
  attributes : LedgerEventAttributes
  contractActionId : Option Nat
  contractAddress : Option Bytes
  deriving DecidableEq

def utf8 (s : String) : Bytes := s.toUTF8.data.toList

def isMatch (contractAddress entryPoint : Bytes) (address : Bytes) : ContractAttributes → Bool
  | .call actionEntryPoint => utf8 actionEntryPoint == entryPoint && address == contractAddress
  | _ => false

/-- A second match is ambiguous and leaves the event unattributed. -/
def correlateLoop (contractAddress entryPoint : Bytes) :
    Option Nat → List (Nat × Bytes × ContractAttributes) → Option Nat
  | matched, [] => matched
  | matched, (actionId, address, attributes) :: actions =>
      if isMatch contractAddress entryPoint address attributes then
        match matched with
        | some _ => none
        | none => correlateLoop contractAddress entryPoint (some actionId) actions
      else correlateLoop contractAddress entryPoint matched actions

def correlateContractActionId (event : LedgerEvent)
    (actions : List (Nat × Bytes × ContractAttributes)) : Option Nat := do
  let contractAddress ← event.contractAddress
  let entryPoint ← event.attributes.contractEntryPoint
  correlateLoop contractAddress entryPoint none actions

structure ContractAction where
  address : Bytes
  state : Bytes
  attributes : ContractAttributes
  deriving DecidableEq

structure RegularTransaction where
  hash : ByteArr 32
  protocolVersion : ProtocolVersion
  raw : Bytes
  identifiers : List Bytes
  contractActions : List ContractAction
  deriving DecidableEq

structure SystemTransaction where
  hash : ByteArr 32
  protocolVersion : ProtocolVersion
  raw : Bytes
  deriving DecidableEq

inductive Transaction
  | regular (tx : RegularTransaction)
  | system (tx : SystemTransaction)
  deriving DecidableEq

structure ZswapMerkleTreeRoot where
  version : LedgerVersion
  digest : Bytes
  deriving DecidableEq

structure Block where
  hash : ByteArr 32
  height : Nat
  protocolVersion : ProtocolVersion
  parentHash : ByteArr 32
  author : Option (ByteArr 32)
  timestamp : Nat
  zswapMerkleTreeRoot : ZswapMerkleTreeRoot
  ledgerStateRoot : Option Bytes
  transactions : List Transaction
  dustRegistrationEvents : List DustRegistrationEvent
  height_lt : height < 2 ^ 64
  timestamp_lt : timestamp < 2 ^ 64
  deriving DecidableEq

structure BlockRef where
  hash : ByteArr 32
  height : Nat
  deriving DecidableEq

def hexDigit (n : Nat) : Char := "0123456789abcdef".toList.getD n '0'

def hexEncode (bytes : Bytes) : String :=
  String.ofList (bytes.flatMap (fun b => [hexDigit (b.toNat / 16), hexDigit (b.toNat % 16)]))

end Nightfrost.Domain
