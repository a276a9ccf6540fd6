import Nightfrost.ContractLog
import Nightfrost.DustEvents

namespace Nightfrost.LedgerEvents

open ByteOrder Domain ExceptFold ContractLog DustEvents

def LedgerEvent.zswapInput (raw nullifier : Bytes) : LedgerEvent :=
  ⟨.zswap, raw, .zswapInput nullifier, none, none⟩

def LedgerEvent.zswapOutput (raw : Bytes) : LedgerEvent := ⟨.zswap, raw, .zswapOutput, none, none⟩

def LedgerEvent.paramChange (raw : Bytes) : LedgerEvent := ⟨.dust, raw, .paramChange, none, none⟩

def LedgerEvent.dustSpendProcessed (raw nullifier commitment : Bytes) : LedgerEvent :=
  ⟨.dust, raw, .dustSpendProcessed nullifier commitment, none, none⟩

def LedgerEvent.contractEvent (raw contractAddress : Bytes) (contractActionId : Option Nat)
    (attributes : LedgerEventAttributes) : LedgerEvent :=
  ⟨.contract, raw, attributes, contractActionId, some contractAddress⟩

inductive EventDetails (lib : DustLib)
  | zswapInput (nullifier : Bytes)
  | zswapOutput
  | contractDeploy
  | contractLog (address entryPoint : Bytes) (loggedItem : VersionedLogItem)
  | paramChange
  | dustInitialUtxo (output : LedgerDustOutput lib.Owner) (generation : LedgerGeneration lib.Owner)
      (generationIndex : Nat)
  | dustGenerationDtimeUpdate (update : TreeInsertionPath (LedgerGeneration lib.Owner))
  | dustSpendProcessed (nullifier commitment : Bytes)
  | other (name : String)

structure Event (lib : DustLib) where
  content : EventDetails lib
  serialized : Except String Bytes

variable {lib : DustLib}

def makeLedgerEvent
    (makeInitial : LedgerDustOutput lib.Owner → LedgerGeneration lib.Owner → Nat → Bytes →
      Except String LedgerEvent)
    (makeDtimeUpdate : TreeInsertionPath (LedgerGeneration lib.Owner) → Bytes → Except String LedgerEvent)
    (makeLog : Bytes → Bytes → VersionedLogItem → Bytes → Option LedgerEvent)
    (raw : Bytes) : EventDetails lib → Option (Except String LedgerEvent)
  | .zswapInput nullifier => some (.ok (LedgerEvent.zswapInput raw nullifier))
  | .zswapOutput => some (.ok (LedgerEvent.zswapOutput raw))
  | .contractDeploy => none
  | .contractLog address entryPoint loggedItem => (makeLog address entryPoint loggedItem raw).map .ok
  | .paramChange => some (.ok (LedgerEvent.paramChange raw))
  | .dustInitialUtxo output generation generationIndex =>
      some (makeInitial output generation generationIndex raw)
  | .dustGenerationDtimeUpdate update => some (makeDtimeUpdate update raw)
  | .dustSpendProcessed nullifier commitment =>
      some (.ok (LedgerEvent.dustSpendProcessed raw nullifier commitment))
  | .other name => some (.error ("unsupported event variant: " ++ name))

/-- The items of the iterator that the events are collected from. An event that does
not serialize gives none: `flatten` passes over it, as over one that is not of interest. -/
def eventItem (make : Bytes → EventDetails lib → Option (Except String LedgerEvent))
    (event : Event lib) : Option (Except String LedgerEvent) :=
  match event.serialized with
  | .error _ => none
  | .ok raw => make raw event.content

/-- The first item that is an error ends the collection. -/
def makeLedgerEvents (make : Bytes → EventDetails lib → Option (Except String LedgerEvent)) :
    List (Event lib) → Except String (List LedgerEvent)
  | [] => .ok []
  | event :: events =>
      match eventItem make event with
      | none => makeLedgerEvents make events
      | some item => do
          let made ← item
          let rest ← makeLedgerEvents make events
          .ok (made :: rest)

def makeLedgerEventV8 (raw : Bytes) : EventDetails lib → Option (Except String LedgerEvent) :=
  makeLedgerEvent (makeDustInitialUtxoV8 lib) (makeDustGenerationDtimeUpdateV8 lib)
    (fun _ _ _ _ => none) raw

def makeLedgerEventV9 (raw : Bytes) : EventDetails lib → Option (Except String LedgerEvent) :=
  makeLedgerEvent (makeDustInitialUtxoV9 lib) (makeDustGenerationDtimeUpdateV9 lib)
    (fun address entryPoint loggedItem raw => some
      (LedgerEvent.contractEvent raw address none (makeContractEventAttributes loggedItem entryPoint)))
    raw

def makeLedgerEventsV8 (events : List (Event lib)) : Except String (List LedgerEvent) :=
  makeLedgerEvents makeLedgerEventV8 events

def makeLedgerEventsV9 (events : List (Event lib)) : Except String (List LedgerEvent) :=
  makeLedgerEvents makeLedgerEventV9 events

end Nightfrost.LedgerEvents
