import Nightfrost.BlockRun
import Nightfrost.MovingStore

namespace Nightfrost.Api

open ByteOrder Tables Partitions Domain Schema MovingStore

structure ApiError where
  statusCode : Nat
  error : String
  message : String
  deriving DecidableEq

def ApiError.badRequest (message : String) : ApiError := ⟨400, "Bad Request", message⟩

def ApiError.notFound (message : String) : ApiError := ⟨404, "Not Found", message⟩

def ApiError.gone (message : String) : ApiError := ⟨410, "Gone", message⟩

def ApiError.internal (message : String) : ApiError := ⟨500, "Internal Server Error", message⟩

abbrev Handler (α : Type) := Reads Store ApiError α

structure TipAnchor where
  height : Nat
  hash : ByteArr 32
  deriving DecidableEq

structure TipResponse where
  hash : String
  height : Nat
  deriving DecidableEq

def TipResponse.from (tip : TipAnchor) : TipResponse := ⟨hexEncode tip.hash.val, tip.height⟩

structure PointResponse (T : Type) where
  results : T
  tip : Option TipResponse
  deriving DecidableEq

structure ApiResponse (T : Type) where
  results : T
  tip : Option TipResponse
  nextCursor : Option String
  deriving DecidableEq

def currentTip : Handler (Option TipAnchor) := do
  match ← query lastIndexedHeight with
  | none => pure none
  | some height =>
      match ← query (Schema.block · height) with
      | none => .fail (.internal "indexed tip block is missing")
      | some block => pure (some ⟨height, block.hash⟩)

def response {T : Type} (results : T) : Handler (PointResponse T) := do
  let tip ← currentTip
  pure ⟨results, tip.map TipResponse.from⟩

def walletEventsDefaultCount : Nat := 5000

structure EventResponse where
  id : Nat
  grouping : LedgerEventGrouping
  attributes : LedgerEventAttributes
  raw : String
  txId : Nat
  blockHeight : Nat
  protocolVersion : Nat
  deriving DecidableEq

def EventResponse.of (id : Nat) (record : EventRecord) (block : BlockRecord) : EventResponse where
  id
  grouping := record.event.grouping
  raw := hexEncode record.event.raw
  attributes := record.event.attributes
  txId := record.txId
  blockHeight := record.blockHeight
  protocolVersion := block.protocolVersion

def EventResponse.new (id : Nat) (record : EventRecord) : Handler EventResponse := do
  match ← query (Schema.block · record.blockHeight) with
  | none => .fail (.internal "missing block for ledger event")
  | some block => pure (.of id record block)

end Nightfrost.Api
