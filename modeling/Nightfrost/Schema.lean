import Nightfrost.Partitions
import Nightfrost.Domain

namespace Nightfrost.Schema

open ByteOrder Tables Partitions Domain

abbrev LedgerStateWindow := List (Bytes × LedgerVersion)

structure BlockRecord where
  hash : ByteArr 32
  parentHash : ByteArr 32
  timestamp : Nat
  protocolVersion : Nat
  author : Option (ByteArr 32)
  firstTxId : Nat
  txCount : Nat
  zswapMerkleTreeRoot : Bytes
  ledgerStateRoot : Option Bytes
  deriving DecidableEq

structure TxRecord where
  hash : ByteArr 32
  blockHeight : Nat
  indexInBlock : Nat
  variant : TransactionVariant
  result : TransactionResult
  paidFees : Nat
  estimatedFees : Nat
  identifiers : List Bytes
  contractActionIds : List Nat
  firstEventId : Nat
  eventCount : Nat
  createdUtxos : List UnshieldedUtxo
  spentUtxos : List UnshieldedUtxo
  raw : Bytes
  deriving DecidableEq

structure UtxoRecord where
  utxo : UnshieldedUtxo
  creatingTxId : Nat
  spendingTxId : Option Nat
  deriving DecidableEq

structure ContractActionRecord where
  address : Bytes
  attributes : ContractAttributes
  stateHash : Option (ByteArr 32)
  balances : List ContractBalance
  txId : Nat
  blockHeight : Nat
  deriving DecidableEq

structure LegacyContractActionRecord where
  address : Bytes
  attributes : ContractAttributes
  state : Bytes
  balances : List ContractBalance
  txId : Nat
  blockHeight : Nat
  deriving DecidableEq

structure ContractRecord where
  deployActionId : Nat
  latestActionId : Nat
  deriving DecidableEq

structure EventRecord where
  event : LedgerEvent
  txId : Nat
  blockHeight : Nat
  deriving DecidableEq

structure WalletTxIndexRecord where
  zswapStartIndex : Nat
  zswapEndIndex : Nat
  protocolVersion : Nat
  deriving DecidableEq

structure DustGenerationRecord where
  info : DustGenerationInfo
  txId : Nat
  deriving DecidableEq

structure CnightRegistrationRecord where
  cardanoStakeKey : Bytes
  dustAddress : Bytes
  valid : Bool
  registeredAtHeight : Nat
  removedAtHeight : Option Nat
  utxoId : Option Bytes
  utxoIndex : Option Nat
  deriving DecidableEq

inductive MetaValue
  | u64 (n : Nat)
  | hash (h : ByteArr 32)
  | window (w : LedgerStateWindow)
  deriving DecidableEq

inductive Part
  | metadata
  | blocks
  | blocksByHash
  | txs
  | txsByHash
  | txsByIdentifier
  | utxos
  | utxosUnspentByOwner
  | balances
  | addrTxs
  | contractActions
  | legacyContractActions
  | contractActionsByAddr
  | contractStates
  | contracts
  | ledgerEvents
  | walletDustEvents
  | walletTxIndices
  | walletRelevantTxs
  | walletScanProgress
  | eventsByContract
  | dustGeneration
  | dustGenByOwner
  | cnightRegistrations
  | ledgerDbNodes
  | ledgerDbRoots
  deriving DecidableEq

/-- The values of each partition, decoded. An arena node is the list of its
children's hashes, an index entry without a value is a unit. -/
@[reducible] def Part.Val : Part → Type
  | .metadata => MetaValue
  | .blocks => BlockRecord
  | .blocksByHash => Nat
  | .txs => TxRecord
  | .utxos => UtxoRecord
  | .utxosUnspentByOwner => Bytes
  | .balances => Nat
  | .contractActions => ContractActionRecord
  | .legacyContractActions => LegacyContractActionRecord
  | .contractStates => Bytes
  | .contracts => ContractRecord
  | .ledgerEvents => EventRecord
  | .walletTxIndices => WalletTxIndexRecord
  | .walletScanProgress => Nat
  | .dustGeneration => DustGenerationRecord
  | .cnightRegistrations => CnightRegistrationRecord
  | .ledgerDbNodes => List Bytes
  | .ledgerDbRoots => Nat
  | .txsByHash | .txsByIdentifier | .addrTxs | .contractActionsByAddr | .walletDustEvents
  | .walletRelevantTxs | .eventsByContract | .dustGenByOwner => Unit

abbrev Store := Keyspace Part.Val

abbrev StoreBatch := Batch Part.Val

section MetaKeys

def lastHeightKey : Bytes := utf8 "last_indexed_height"

def schemaVersionKey : Bytes := utf8 "schema_version"

def contractStatesBackfillCursorKey : Bytes := utf8 "contract_states_backfill_cursor"

def tipTimestampKey : Bytes := utf8 "tip_timestamp"

def genesisHashKey : Bytes := utf8 "genesis_hash"

def nextTxIdKey : Bytes := utf8 "next_tx_id"

def nextActionIdKey : Bytes := utf8 "next_action_id"

def nextEventIdKey : Bytes := utf8 "next_event_id"

def ledgerStateWindowKey : Bytes := utf8 "ledger_state_window"

def walletTxIndexedThroughKey : Bytes := utf8 "wallet_tx_indexed_through"

def walletDustIndexedThroughKey : Bytes := utf8 "wallet_dust_indexed_through"

def metaKeys : List Bytes :=
  [lastHeightKey, schemaVersionKey, contractStatesBackfillCursorKey, tipTimestampKey,
    genesisHashKey, nextTxIdKey, nextActionIdKey, nextEventIdKey, ledgerStateWindowKey,
    walletTxIndexedThroughKey, walletDustIndexedThroughKey]

theorem metaKeys_nodup : metaKeys.Nodup := by
  decide

end MetaKeys

def prefixedU64Key (p : Bytes) (id : Nat) : Bytes := p ++ be 8 id

def keyU64Suffix (key : Bytes) : Nat := fromBe (key.drop (key.length - 8))

def utxoKey (intentHash : ByteArr 32) (outputIndex : Nat) : Bytes := intentHash.val ++ be 4 outputIndex

def schemaCurrent : Nat := 2

def metaU64 (s : Store) (key : Bytes) : Option Nat :=
  match (s .metadata)[key]? with
  | some (.u64 n) => some n
  | _ => none

def lastIndexedHeight (s : Store) : Option Nat := metaU64 s lastHeightKey

def tipTimestamp (s : Store) : Option Nat := metaU64 s tipTimestampKey

def nextId (s : Store) (key : Bytes) : Nat := (metaU64 s key).getD 0

theorem metaU64_put (s : Store) (k : Bytes) (n : Nat) (key : Bytes) :
    metaU64 ((Op.put .metadata k (.u64 n)).apply s) key = if k = key then some n else metaU64 s key := by
  rw [metaU64, apply_put_same, get_insert]
  by_cases hk : k = key
  · rw [if_pos hk, if_pos hk]
  · rw [if_neg hk, if_neg hk]
    rfl

theorem metaU64_other {s s' : Store} (h : s' .metadata = s .metadata) (key : Bytes) :
    metaU64 s' key = metaU64 s key := by
  rw [metaU64, metaU64, h]

def ledgerStateWindow (s : Store) : LedgerStateWindow :=
  match (s .metadata)[ledgerStateWindowKey]? with
  | some (.window w) => w
  | _ => []

def genesisHash (s : Store) : Option (ByteArr 32) :=
  match (s .metadata)[genesisHashKey]? with
  | some (.hash h) => some h
  | _ => none

def block (s : Store) (height : Nat) : Option BlockRecord := (s .blocks)[be 8 height]?

def tx (s : Store) (txId : Nat) : Option TxRecord := (s .txs)[be 8 txId]?

/-- What opening an empty data directory leaves: no row but the schema version. -/
def fresh : Store :=
  Op.apply (fun _ => ∅) (Op.put .metadata schemaVersionKey (.u64 schemaCurrent))

theorem fresh_other {p : Part} (h : p ≠ .metadata) : fresh p = ∅ := by
  simp [fresh, h]

theorem prefixedU64Key_suffix (p : Bytes) {id : Nat} (h : id < 2 ^ 64) :
    keyU64Suffix (prefixedU64Key p id) = id := by
  simp only [keyU64Suffix, prefixedU64Key, List.length_append, be_length, Nat.add_sub_cancel,
    List.drop_left]
  exact fromBe_be h

theorem prefixedU64Key_injective {p q : Bytes} {i j : Nat} (hi : i < 2 ^ 64) (hj : j < 2 ^ 64)
    (h : prefixedU64Key p i = prefixedU64Key q j) : p = q ∧ i = j := by
  obtain ⟨hp, hd⟩ := List.append_inj' h (by simp)
  exact ⟨hp, be_injective (w := 8) hi hj hd⟩

theorem utxoKey_length (intentHash : ByteArr 32) (outputIndex : Nat) :
    (utxoKey intentHash outputIndex).length = 36 := by
  simp [utxoKey, intentHash.property]

theorem utxoKey_injective {h h' : ByteArr 32} {i j : Nat} (hi : i < 2 ^ 32) (hj : j < 2 ^ 32)
    (hk : utxoKey h i = utxoKey h' j) : h = h' ∧ i = j := by
  obtain ⟨hp, hd⟩ := List.append_inj' hk (by simp)
  exact ⟨Subtype.ext hp, be_injective (w := 4) hi hj hd⟩

end Nightfrost.Schema
