import Nightfrost.Api

namespace Nightfrost.ShieldedSync

open ByteOrder Tables Partitions Domain Schema MovingStore Api ExceptFold EntityLog BlockRun

structure ZswapOffer where
  outputs : List (Option Bytes)
  transient : List (Option Bytes)
  deriving DecidableEq

inductive LedgerTransaction
  | standard (version : LedgerVersion) (guaranteedCoins : Option ZswapOffer)
      (fallibleCoins : List ZswapOffer)
  | claimRewards (version : LedgerVersion)
  deriving DecidableEq

/-- The ledger and crypto libraries that wallet syncing calls. -/
structure WalletLibs where
  SecretKey : Type
  Ledger : Type
  hexDecode : String → Option Bytes
  sha256 : Bytes → ByteArr 32
  deserializeKey : Bytes → Option (SecretKey × Bytes)
  keyRepr : SecretKey → ByteArr 32
  deserializeTransaction : Bytes → LedgerVersion → Except String LedgerTransaction
  secretKeyFromRepr : LedgerVersion → ByteArr 32 → Option SecretKey
  decrypt : LedgerVersion → SecretKey → Bytes → Bool
  loadLedger : Bytes → LedgerVersion → Except String Ledger
  zswapFirstFree : Ledger → Nat
  makeZswapCollapsedUpdate : Ledger → Nat → Nat → Except String Bytes

variable (libs : WalletLibs)

def viewingKeyRepr (serialized : Bytes) : Option (ByteArr 32) :=
  if h : serialized.length = 32 then some ⟨serialized, h⟩
  else
    match libs.deserializeKey serialized with
    | some (key, input) => if input ≠ [] then none else some (libs.keyRepr key)
    | none => none

def canDecrypt (version : LedgerVersion) (key : libs.SecretKey) (offer : ZswapOffer) : Bool :=
  let outputs := offer.outputs.filterMap id
  let transient := offer.transient.filterMap id
  (outputs ++ transient).any (libs.decrypt version key)

def relevant (transaction : LedgerTransaction) (viewingKey : ByteArr 32) : Bool :=
  match transaction with
  | .standard version guaranteedCoins fallibleCoins =>
      match libs.secretKeyFromRepr version viewingKey with
      | none => false
      | some secretKey =>
          guaranteedCoins.any (canDecrypt libs version secretKey) ||
            fallibleCoins.any (canDecrypt libs version secretKey)
  | .claimRewards _ => false

section Scan

def walletRelevanceKey (viewingHash : ByteArr 32) (txId : Nat) : Bytes := viewingHash.val ++ be 8 txId

def scanProgress (s : Store) (viewingHash : ByteArr 32) : Nat :=
  (s .walletScanProgress)[viewingHash.val]?.getD 0

def walletTxIndexOf (s : Store) (txId : Nat) : Option WalletTxIndexRecord :=
  (s .walletTxIndices)[be 8 txId]?

/-- Whether the scan marks a transaction: it is regular and relevant. -/
def scanTransaction (s : Store) (viewingKey : ByteArr 32) (txId : Nat) : Except String Bool :=
  match tx s txId with
  | none => .error s!"missing transaction {txId}"
  | some record =>
      if record.variant ≠ .regular then .ok false
      else
        match walletTxIndexOf s txId with
        | none => .error s!"missing wallet transaction index {txId}"
        | some index => do
            let protocolVersion ← ProtocolVersion.tryFrom index.protocolVersion
            let transaction ←
              libs.deserializeTransaction record.raw protocolVersion.ledgerVersion
            .ok (relevant libs transaction viewingKey)

def scanBatch (s : Store) (viewingHash viewingKey : ByteArr 32) (scanned batchEnd : Nat) :
    Except String Store := do
  let marks ← (List.range' scanned (batchEnd - scanned)).foldlM
    (fun (batch : StoreBatch) txId => do
      if ← scanTransaction libs s viewingKey txId then
        .ok (batch ++ [Op.put .walletRelevantTxs (walletRelevanceKey viewingHash txId) ()])
      else .ok batch) []
  .ok (commit s (marks ++ [Op.put .walletScanProgress viewingHash.val batchEnd]))

def scanLoop (viewingHash viewingKey : ByteArr 32) (targetTx : Nat) :
    Nat → Store → Nat → Except String Store
  | 0, s, _ => .ok s
  | fuel + 1, s, scanned =>
      if scanned < targetTx then do
        let batchEnd := min targetTx (scanned + 1000)
        let s ← scanBatch libs s viewingHash viewingKey scanned batchEnd
        scanLoop viewingHash viewingKey targetTx fuel s batchEnd
      else .ok s

/-- Every batch moves the scan on, so that as many rounds as there are
transactions to scan are enough. -/
def scanWalletRelevance (s : Store) (viewingHash viewingKey : ByteArr 32) (targetTx : Nat) :
    Except String Store :=
  scanLoop libs viewingHash viewingKey targetTx (targetTx - scanProgress s viewingHash) s
    (scanProgress s viewingHash)

end Scan

structure ShieldedSyncRequest where
  viewingKey : String
  fromIndex : Nat

inductive ShieldedSyncUpdate
  | collapsed (fromIndex toIndex protocolVersion : Nat) (update : String)
  | transaction (fromIndex toIndex protocolVersion txId : Nat) (txHash : String)
      (events : List EventResponse)
  deriving DecidableEq

structure ShieldedSyncResult where
  updates : List ShieldedSyncUpdate
  appliedThrough : Nat
  highestIndex : Nat
  scannedTransactions : Nat
  deriving DecidableEq

def internal {ε : Type} (x : Except String ε) : Except ApiError ε :=
  match x with
  | .ok a => .ok a
  | .error message => .error (.internal message)

def zswapEvents : List Nat → Handler (List EventResponse)
  | [] => pure []
  | eventId :: eventIds => do
      match ← query (fun s => (s .ledgerEvents)[be 8 eventId]?) with
      | none => .fail (.internal "missing relevant event")
      | some record =>
          if record.event.grouping = .zswap then
            let event ← EventResponse.new eventId record
            let events ← zswapEvents eventIds
            pure (event :: events)
          else zswapEvents eventIds

/-- The collapsed update of a gap, if there is a gap. Its bounds are inclusive. -/
def collapsedUpdate (ledgerState : libs.Ledger) (protocolVersion fromIndex toIndex : Nat) :
    Handler (List ShieldedSyncUpdate) :=
  if fromIndex < toIndex then do
    let update ← liftExcept
      (internal (libs.makeZswapCollapsedUpdate ledgerState fromIndex (toIndex - 1)))
    pure [.collapsed fromIndex toIndex protocolVersion (hexEncode update)]
  else pure []

def transactionUpdate (txId : Nat) (index : WalletTxIndexRecord) : Handler ShieldedSyncUpdate := do
  match ← query (tx · txId) with
  | none => .fail (.internal "missing relevant transaction")
  | some record =>
      let events ← zswapEvents (List.range' record.firstEventId record.eventCount)
      pure (.transaction index.zswapStartIndex index.zswapEndIndex index.protocolVersion txId
        (hexEncode record.hash.val) events)

def updateLoop (ledgerState : libs.Ledger) (protocolVersion targetTx : Nat) :
    List Bytes → List ShieldedSyncUpdate → Nat → Handler (List ShieldedSyncUpdate × Nat)
  | [], updates, appliedThrough => pure (updates, appliedThrough)
  | key :: keys, updates, appliedThrough => do
      let txId := keyU64Suffix key
      if txId ≥ targetTx then pure (updates, appliedThrough)
      else
        match ← query (walletTxIndexOf · txId) with
        | none => .fail (.internal "missing wallet transaction index")
        | some index =>
            if index.zswapEndIndex ≤ appliedThrough then
              updateLoop ledgerState protocolVersion targetTx keys updates appliedThrough
            else if index.zswapStartIndex < appliedThrough then
              .fail (.badRequest "from_index falls inside a relevant transaction")
            else
              let gap ← collapsedUpdate libs ledgerState protocolVersion appliedThrough
                index.zswapStartIndex
              let update ← transactionUpdate txId index
              updateLoop ledgerState protocolVersion targetTx keys (updates ++ gap ++ [update])
                index.zswapEndIndex

def trimStart0x : List Char → List Char
  | '0' :: 'x' :: rest => trimStart0x rest
  | chars => chars

def parseViewingKey (viewingKey : String) : Except ApiError (ByteArr 32) :=
  match libs.hexDecode (String.ofList (trimStart0x viewingKey.toList)) with
  | none => .error (.badRequest "viewing_key must be hex-encoded")
  | some bytes =>
      match viewingKeyRepr libs bytes with
      | none => .error (.badRequest
          "viewing_key must be a raw 32-byte key or official SDK serialization")
      | some viewingKey => .ok viewingKey

def syncTarget : Handler (Option TipAnchor × Nat) := do
  let tip ← currentTip
  match tip with
  | none => pure (none, 0)
  | some tip =>
      match ← query (Schema.block · tip.height) with
      | none => .fail (.internal "indexed tip block is missing")
      | some block => pure (some tip, block.firstTxId + block.txCount)

def syncUpdates (tip : Option TipAnchor) (targetTx fromIndex : Nat) (viewingHash : ByteArr 32) :
    Handler (PointResponse ShieldedSyncResult) := do
  match ← query (walletTxIndexOf · (targetTx - 1)) with
  | none => .fail (.internal "missing wallet transaction index at sync boundary")
  | some boundary =>
      let highestIndex := boundary.zswapEndIndex
      let window ← query ledgerStateWindow
      match window.getLast? with
      | none => .fail (.internal "wallet sync requires a persisted ledger state")
      | some (ledgerKey, ledgerVersion) =>
          let ledgerState ← liftExcept (internal (libs.loadLedger ledgerKey ledgerVersion))
          if libs.zswapFirstFree ledgerState < highestIndex then
            .fail (.internal "persisted ledger state is behind the wallet sync boundary")
          else if fromIndex > highestIndex then
            .fail (.badRequest "from_index is beyond the Zswap tree")
          else
            match ← query (fun s => tip.bind (fun tip => Schema.block s tip.height)) with
            | none => .fail (.internal "indexed tip block is missing")
            | some block =>
                let keys ← query
                  (fun s => (scanPrefix (s .walletRelevantTxs) viewingHash.val).map Prod.fst)
                let (updates, appliedThrough) ←
                  updateLoop libs ledgerState block.protocolVersion targetTx keys [] fromIndex
                let gap ← collapsedUpdate libs ledgerState block.protocolVersion appliedThrough
                  highestIndex
                let appliedThrough :=
                  if appliedThrough < highestIndex then highestIndex else appliedThrough
                pure ⟨⟨updates ++ gap, appliedThrough, highestIndex, targetTx⟩,
                  tip.map TipResponse.from⟩

/-- A sync against a store that no block is written to meanwhile: its answer,
and the store with the marks of its scan. -/
def walletShieldedSync (s : Store) (request : ShieldedSyncRequest) :
    Except ApiError (Store × PointResponse ShieldedSyncResult) := do
  let viewingKey ← parseViewingKey libs request.viewingKey
  let viewingHash := libs.sha256 viewingKey.val
  let (tip, targetTx) ← syncTarget.at s
  let s ← internal (scanWalletRelevance libs s viewingHash viewingKey targetTx)
  if targetTx = 0 then .ok (s, ⟨⟨[], 0, 0, 0⟩, none⟩)
  else
    let answer ← (syncUpdates libs tip targetTx request.fromIndex viewingHash).at s
    .ok (s, answer)

end Nightfrost.ShieldedSync
