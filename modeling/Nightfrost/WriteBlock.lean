import Nightfrost.Schema

namespace Nightfrost.WriteBlock

open ByteOrder Tables Partitions Domain Schema

def ledgerStateRetention : Nat := 32

structure Counters where
  nextTxId : Nat
  nextActionId : Nat
  nextEventId : Nat
  deriving DecidableEq

def Counters.load (s : Store) : Counters :=
  ⟨nextId s nextTxIdKey, nextId s nextActionIdKey, nextId s nextEventIdKey⟩

/-- `+= 1` on a `u64` counter, as in a build without overflow checks. -/
def increment (n : Nat) : Nat := (n + 1) % 2 ^ 64

/-- Everything derived from applying one transaction. A contract action comes
with its address and its state blob. -/
structure AppliedTransaction where
  hash : ByteArr 32
  protocolVersion : Nat
  zswapStartIndex : Nat
  zswapEndIndex : Nat
  variant : TransactionVariant
  result : TransactionResult
  fees : Nat
  identifiers : List Bytes
  contractActions : List (Bytes × ContractActionRecord × Bytes)
  createdUtxos : List UnshieldedUtxo
  spentUtxos : List UnshieldedUtxo
  ledgerEvents : List LedgerEvent
  raw : Bytes

/-- The loop state of `writeBlock`: the pending batch, the counters, and the
in-block caches that stand in for reading the pending writes. -/
structure Staged where
  batch : StoreBatch
  ids : Counters
  createdThisBlock : Table UtxoRecord
  balanceDeltas : Table Int
  touchedAddresses : Table (List Nat)
  contractsThisBlock : Table ContractRecord
  statesThisBlock : Table Unit

def Staged.start (ids : Counters) : Staged := ⟨[], ids, ∅, ∅, ∅, ∅, ∅⟩

def Staged.put (st : Staged) (p : Part) (k : Bytes) (v : p.Val) : Staged :=
  { st with batch := st.batch ++ [Op.put p k v] }

def Staged.remove (st : Staged) (p : Part) (k : Bytes) : Staged :=
  { st with batch := st.batch ++ [Op.remove p k] }

/-- Reduction to the range of an `i128`, in the same build. -/
def wrapI128 (x : Int) : Int := Int.bmod x (2 ^ 128)

def unspentKey (utxo : UnshieldedUtxo) : Bytes :=
  utxo.owner.val ++ utxo.tokenType.val ++ utxoKey utxo.intentHash utxo.outputIndex

def balanceKey (owner tokenType : ByteArr 32) : Bytes := owner.val ++ tokenType.val

def dustGenOwnerKey (owner : Bytes) (nightUtxoHash : ByteArr 32) : Bytes := owner ++ nightUtxoHash.val

def Staged.addDelta (st : Staged) (utxo : UnshieldedUtxo) (amount : Int) : Staged :=
  let key := balanceKey utxo.owner utxo.tokenType
  let delta := st.balanceDeltas[key]?.getD 0
  { st with balanceDeltas := st.balanceDeltas.insert key (wrapI128 (delta + amount)) }

def Staged.touch (st : Staged) (owner : ByteArr 32) (txId : Nat) : Staged :=
  let txIds := st.touchedAddresses[owner.val]?.getD []
  { st with touchedAddresses := st.touchedAddresses.insert owner.val (txIds ++ [txId]) }

def Staged.stageUtxo (st : Staged) (key : Bytes) (record : UtxoRecord) : Staged :=
  { st.put .utxos key record with createdThisBlock := st.createdThisBlock.insert key record }

def createUtxo (txId : Nat) (st : Staged) (utxo : UnshieldedUtxo) : Staged :=
  let key := utxoKey utxo.intentHash utxo.outputIndex
  let st := st.stageUtxo key ⟨utxo, txId, none⟩
  let st := st.put .utxosUnspentByOwner (unspentKey utxo) key
  let st := st.addDelta utxo (wrapI128 utxo.value)
  st.touch utxo.owner txId

/-- Mark a UTXO spent and drop it from the unspent index. The record of a UTXO
created in this block is only in the cache. -/
def spendUtxo (s : Store) (txId : Nat) (st : Staged) (utxo : UnshieldedUtxo) : Except String Staged :=
  let key := utxoKey utxo.intentHash utxo.outputIndex
  match overlay st.createdThisBlock (s .utxos) key with
  | none => .error s!"spent utxo {hexEncode utxo.intentHash.val}/{utxo.outputIndex} not found"
  | some record =>
      let st := st.stageUtxo key { record with spendingTxId := some txId }
      let st := st.remove .utxosUnspentByOwner (unspentKey utxo)
      let st := st.addDelta utxo (-wrapI128 utxo.value)
      .ok (st.touch utxo.owner txId)

def stageState (s : Store) (st : Staged) (stateHash : Option (ByteArr 32)) (state : Bytes) : Staged :=
  match stateHash with
  | some hash =>
      if hash.val ∉ st.statesThisBlock ∧ hash.val ∉ s .contractStates then
        { st.put .contractStates hash.val state with
          statesThisBlock := st.statesThisBlock.insert hash.val () }
      else st
  | none => st

/-- A failed action has no state and never becomes a contract's deploy or
latest pointer. -/
def stageContract (s : Store) (st : Staged) (stateHash : Option (ByteArr 32)) (address : Bytes)
    (actionId : Nat) : Staged :=
  match stateHash with
  | none => st
  | some _ =>
      let contract : ContractRecord :=
        match overlay st.contractsThisBlock (s .contracts) address with
        | some contract => { contract with latestActionId := actionId }
        | none => ⟨actionId, actionId⟩
      { st.put .contracts address contract with
        contractsThisBlock := st.contractsThisBlock.insert address contract }

def stageContractAction (s : Store) (txId actionId : Nat) (st : Staged)
    (action : Bytes × ContractActionRecord × Bytes) : Staged :=
  let (address, record, state) := action
  let record := { record with txId }
  let st := st.put .contractActions (be 8 actionId) record
  let st := st.put .contractActionsByAddr (prefixedU64Key address actionId) ()
  let st := stageState s st record.stateHash state
  stageContract s st record.stateHash address actionId

def writeContractAction (s : Store) (txId : Nat) (acc : Staged × List Nat)
    (action : Bytes × ContractActionRecord × Bytes) : Staged × List Nat :=
  let (st, contractActionIds) := acc
  let actionId := st.ids.nextActionId
  let st := { st with ids := { st.ids with nextActionId := increment actionId } }
  (stageContractAction s txId actionId st action, contractActionIds ++ [actionId])

def stageContractIndex (st : Staged) (contractAddress : Option Bytes) (eventId : Nat) : Staged :=
  match contractAddress with
  | some address => st.put .eventsByContract (prefixedU64Key address eventId) ()
  | none => st

def stageDustIndex (st : Staged) (grouping : LedgerEventGrouping) (eventId : Nat) : Staged :=
  match grouping with
  | .dust => st.put .walletDustEvents (be 8 eventId) ()
  | _ => st

def stageDustGeneration (st : Staged) (txId : Nat) (attributes : LedgerEventAttributes) : Staged :=
  match attributes with
  | .dustInitialUtxo _ generationInfo _ | .dustGenerationDtimeUpdate generationInfo _ _ =>
      let st := st.put .dustGeneration generationInfo.nightUtxoHash.val ⟨generationInfo, txId⟩
      st.put .dustGenByOwner (dustGenOwnerKey generationInfo.owner generationInfo.nightUtxoHash) ()
  | _ => st

def correlated (actions : List (Nat × Bytes × ContractAttributes)) (event : LedgerEvent) : LedgerEvent :=
  { event with
    contractActionId := (correlateContractActionId event actions).or event.contractActionId }

def stageLedgerEvent (height txId eventId : Nat) (st : Staged) (event : LedgerEvent) : Staged :=
  let st := stageContractIndex st event.contractAddress eventId
  let st := st.put .ledgerEvents (be 8 eventId) ⟨event, txId, height⟩
  let st := stageDustIndex st event.grouping eventId
  stageDustGeneration st txId event.attributes

def writeLedgerEvent (height txId : Nat) (actions : List (Nat × Bytes × ContractAttributes))
    (st : Staged) (event : LedgerEvent) : Staged :=
  let eventId := st.ids.nextEventId
  let st := { st with ids := { st.ids with nextEventId := increment eventId } }
  stageLedgerEvent height txId eventId st (correlated actions event)

def stageKeyIndexes (st : Staged) (applied : AppliedTransaction) (txId : Nat) : Staged :=
  let st := st.put .walletTxIndices (be 8 txId)
    ⟨applied.zswapStartIndex, applied.zswapEndIndex, applied.protocolVersion⟩
  let st := st.put .txsByHash (prefixedU64Key applied.hash.val txId) ()
  applied.identifiers.foldl
    (fun st identifier => st.put .txsByIdentifier (prefixedU64Key identifier txId) ()) st

def txRecord (height index : Nat) (applied : AppliedTransaction) (contractActionIds : List Nat)
    (firstEventId nextEventId : Nat) : TxRecord :=
  { hash := applied.hash
    blockHeight := height
    indexInBlock := index % 2 ^ 32
    variant := applied.variant
    result := applied.result
    paidFees := applied.fees
    estimatedFees := applied.fees
    identifiers := applied.identifiers
    contractActionIds
    firstEventId
    -- the difference of two `u64`, cut to a `u32`
    eventCount := (nextEventId + 2 ^ 64 - firstEventId) % 2 ^ 32
    createdUtxos := applied.createdUtxos
    spentUtxos := applied.spentUtxos
    raw := applied.raw }

def actionsOf (applied : AppliedTransaction) (contractActionIds : List Nat) :
    List (Nat × Bytes × ContractAttributes) :=
  (applied.contractActions.zip contractActionIds).map (fun a => (a.2, a.1.1, a.1.2.1.attributes))

def writeTransaction (s : Store) (height : Nat) (st : Staged) (entry : AppliedTransaction × Nat) :
    Except String Staged := do
  let (applied, index) := entry
  let txId := st.ids.nextTxId
  let st := { st with ids := { st.ids with nextTxId := increment txId } }
  let firstEventId := st.ids.nextEventId
  let st := stageKeyIndexes st applied txId
  let st := applied.createdUtxos.foldl (createUtxo txId) st
  let st ← applied.spentUtxos.foldlM (spendUtxo s txId) st
  let (st, contractActionIds) := applied.contractActions.foldl (writeContractAction s txId) (st, [])
  let actions := actionsOf applied contractActionIds
  let st := applied.ledgerEvents.foldl (writeLedgerEvent height txId actions) st
  .ok (st.put .txs (be 8 txId)
    (txRecord height index applied contractActionIds firstEventId st.ids.nextEventId))

def writeBalance (s : Store) (batch : StoreBatch) (row : Bytes × Int) : Except String StoreBatch :=
  let current := (s .balances)[row.1]?.getD 0
  let updated := wrapI128 (wrapI128 current + row.2)
  if updated < 0 then .error "balance underflow"
  else .ok (batch ++ [Op.put .balances row.1 updated.toNat])

def writeAddress (batch : StoreBatch) (row : Bytes × List Nat) : StoreBatch :=
  batch ++ row.2.map (fun txId => Op.put .addrTxs (prefixedU64Key row.1 txId) ())

def stakeKeyAndAddress : DustRegistrationEvent → ByteArr 29 × Bytes
  | .registration stakeKey dustAddress | .deregistration stakeKey dustAddress
  | .mappingAdded stakeKey dustAddress _ _ | .mappingRemoved stakeKey dustAddress _ _ =>
      (stakeKey, dustAddress)

def registrationKey (event : DustRegistrationEvent) : Bytes :=
  (stakeKeyAndAddress event).1.val ++ (stakeKeyAndAddress event).2

def newRegistration (event : DustRegistrationEvent) (blockHeight : Nat) : CnightRegistrationRecord :=
  { cardanoStakeKey := (stakeKeyAndAddress event).1.val
    dustAddress := (stakeKeyAndAddress event).2
    valid := false
    registeredAtHeight := blockHeight
    removedAtHeight := none
    utxoId := none
    utxoIndex := none }

def updateRegistration (event : DustRegistrationEvent) (blockHeight : Nat)
    (record : CnightRegistrationRecord) : CnightRegistrationRecord :=
  match event with
  | .registration _ _ =>
      { record with valid := true, registeredAtHeight := blockHeight, removedAtHeight := none }
  | .deregistration _ _ => { record with valid := false, removedAtHeight := some blockHeight }
  | .mappingAdded _ _ utxoId utxoIndex =>
      -- a live mapping is a valid registration
      { record with
        valid := true, removedAtHeight := none, utxoId := some utxoId, utxoIndex := some utxoIndex }
  | .mappingRemoved _ _ _ _ => { record with utxoId := none, utxoIndex := none }

/-- The record is read from the store, not from the pending batch. -/
def applyRegistrationEvent (s : Store) (blockHeight : Nat) (batch : StoreBatch)
    (event : DustRegistrationEvent) : StoreBatch :=
  let key := registrationKey event
  let record := (s .cnightRegistrations)[key]?.getD (newRegistration event blockHeight)
  batch ++ [Op.put .cnightRegistrations key (updateRegistration event blockHeight record)]

def trimWindow : LedgerStateWindow → LedgerStateWindow
  | [] => []
  | entry :: window =>
      if (entry :: window).length > ledgerStateRetention then trimWindow window else entry :: window

def blockRecord (block : Block) (firstTxId txCount : Nat) : BlockRecord :=
  { hash := block.hash
    parentHash := block.parentHash
    timestamp := block.timestamp
    protocolVersion := block.protocolVersion.toU32
    author := block.author
    firstTxId
    txCount := txCount % 2 ^ 32
    zswapMerkleTreeRoot := block.zswapMerkleTreeRoot.digest
    ledgerStateRoot := block.ledgerStateRoot }

def metaOps (block : Block) (ids : Counters) (nextWindow : LedgerStateWindow) : StoreBatch :=
  [Op.put .metadata lastHeightKey (.u64 block.height),
    Op.put .metadata tipTimestampKey (.u64 block.timestamp),
    Op.put .metadata nextTxIdKey (.u64 ids.nextTxId),
    Op.put .metadata nextActionIdKey (.u64 ids.nextActionId),
    Op.put .metadata nextEventIdKey (.u64 ids.nextEventId),
    Op.put .metadata walletTxIndexedThroughKey (.u64 ids.nextTxId),
    Op.put .metadata walletDustIndexedThroughKey (.u64 ids.nextEventId),
    Op.put .metadata ledgerStateWindowKey (.window nextWindow)] ++
  if block.height = 0 then [Op.put .metadata genesisHashKey (.hash block.hash)] else []

def writeBlock (s : Store) (block : Block) (transactions : List AppliedTransaction)
    (ledgerStateKey : Bytes) (window : LedgerStateWindow) (ids : Counters) :
    Except String (Store × Counters) := do
  let firstTxId := ids.nextTxId
  let st ← transactions.zipIdx.foldlM (writeTransaction s block.height) (Staged.start ids)
  let batch ← st.balanceDeltas.toList.foldlM (writeBalance s) st.batch
  let batch := st.touchedAddresses.toList.foldl writeAddress batch
  let batch := block.dustRegistrationEvents.foldl (applyRegistrationEvent s block.height) batch
  let record := blockRecord block firstTxId transactions.length
  let batch := batch ++
    [Op.put .blocks (be 8 block.height) record, Op.put .blocksByHash block.hash.val block.height]
  let nextWindow := trimWindow (window ++ [(ledgerStateKey, block.protocolVersion.ledgerVersion)])
  let batch := batch ++ metaOps block st.ids nextWindow
  .ok (commit s batch, st.ids)

end Nightfrost.WriteBlock
