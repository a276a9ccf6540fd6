import Nightfrost.ContractStates
import Nightfrost.Lookups

namespace Nightfrost.ContractLookups

open ByteOrder Tables Partitions Domain Schema WriteBlock ExceptFold EntityLog BlockRun IndexBlock
  ContractStates MovingStore Api Timeline Endpoints Lookups

section Endpoints

structure ContractResponse where
  address : String
  deployActionId : Nat
  latestActionId : Nat
  latestActionType : String
  latestBlockHeight : Nat
  stateHash : Option String
  balances : List BalanceResponse
  deriving DecidableEq

structure ContractStateResponse where
  address : String
  blockHeight : Nat
  state : String
  deriving DecidableEq

def contractAction (actionId : Nat) : Handler ContractActionRecord := do
  match ← query (fun s => (s .contractActions)[be 8 actionId]?) with
  | none => .fail (.internal "missing contract action record")
  | some record => pure record

def findContract (libs : AddressLibs) (addr : String) : Handler (Bytes × ContractRecord) := do
  let address ← liftExcept (parseContractAddr libs addr)
  match ← query (fun s => (s .contracts)[address]?) with
  | none => .fail (.notFound "contract not found")
  | some record => pure (address, record)

def contract (libs : AddressLibs) (addr : String) : Handler (PointResponse ContractResponse) := do
  let (address, record) ← findContract libs addr
  let latest ← contractAction record.latestActionId
  response
    { address := hexEncode address
      deployActionId := record.deployActionId
      latestActionId := record.latestActionId
      latestActionType := actionType latest
      latestBlockHeight := latest.blockHeight
      stateHash := latest.stateHash.map (fun hash => hexEncode hash.val)
      balances := latest.balances.map fun balance =>
        ⟨hexEncode balance.tokenType.val, toString balance.amount⟩ }

def contractState (libs : AddressLibs) (addr : String) :
    Handler (PointResponse ContractStateResponse) := do
  let (address, record) ← findContract libs addr
  let latest ← contractAction record.latestActionId
  match latest.stateHash with
  | none => .fail (.internal "latest contract action has no state")
  | some stateHash =>
      match ← query (fun s => (s .contractStates)[stateHash.val]?) with
      | none => .fail (.internal "contract state blob missing for hash")
      | some blob =>
          response
            { address := hexEncode address
              blockHeight := latest.blockHeight
              state := hexEncode blob }

variable {L : Type} {libs : LedgerLibs L} {σ : Nat → Store} {blocks : Nat → List DerivedBlock}
  {t t' : Nat}

theorem findContract_unbroken (addressLibs : AddressLibs) (addr : String) :
    Unbroken (findContract addressLibs addr) σ t := by
  refine failsIn_bind (failsIn_liftExcept fun e he => ?_) (fun address t₁ _ _ => ?_)
  · rw [parseContractAddr_error he]
    decide
  · apply failsIn_query
    split
    · exact unbroken_notFound _
    · exact failsIn_pure _

theorem findContract_found {addressLibs : AddressLibs} {addr : String} {address : Bytes}
    {record : ContractRecord}
    (hrun : (findContract addressLibs addr).run σ t = .ok ((address, record), t')) :
    ∃ moment, moment < t' ∧ (σ moment .contracts)[address]? = some record := by
  obtain ⟨parsed, t₁, -, hrest⟩ := run_bind_ok.mp hrun
  obtain ⟨found, t₂, hread, hrest⟩ := run_bind_ok.mp hrest
  obtain ⟨rfl, rfl⟩ := Prod.mk.inj (Except.ok.inj hread)
  dsimp only at hrest
  split at hrest
  · cases hrest
  · rename_i contract hcontract
    obtain ⟨hpair, rfl⟩ := Prod.mk.inj (Except.ok.inj hrest)
    obtain ⟨rfl, rfl⟩ := Prod.mk.inj hpair
    exact ⟨t₁, Nat.lt_succ_self t₁, hcontract⟩

theorem chainActions_mono (h : Growing σ blocks) (hle : t ≤ t') {action : Action}
    (haction : action ∈ chainActions (blocks t)) : action ∈ chainActions (blocks t') := by
  obtain ⟨more, hmore⟩ := h.later hle
  rw [← hmore, chainActions, List.flatMap_append]
  exact List.mem_append_left _ haction

theorem latest_stored (h : Growing σ blocks)
    (hindex : ∀ t, ∃ batches ids, Indexing libs (blocks t) batches (σ t) ids)
    (hsafe : ∀ t, NoCollision libs.sha256
      ((chainActions (blocks t)).map (fun action => action.2.2)))
    {address : Bytes} {contract : ContractRecord}
    (hget : (σ t .contracts)[address]? = some contract) :
    ∃ (record : ContractActionRecord) (hash : ByteArr 32) (blob : Bytes), record.stateHash = some hash ∧
      ∀ t', t ≤ t' → (σ t' .contractActions)[be 8 contract.latestActionId]? = some record ∧
        (σ t' .contractStates)[hash.val]? = some blob := by
  obtain ⟨batches, ids, hrun⟩ := hindex t
  have hconsistent := indexing_consistent hrun (hsafe t)
  obtain ⟨action, haction, -, hstate⟩ := (hconsistent.pointers _ _ hget).2.1
  have hlt : contract.latestActionId < (logOf (blocks t)).actions.length := by
    rw [(logOf_actions (blocks t)).length_eq]
    exact (List.getElem?_eq_some_iff.mp haction).1
  have hrecord := List.getElem?_eq_getElem hlt
  obtain ⟨action', haction', hfields⟩ := action_of_record hrecord
  obtain rfl := Option.some.inj (haction.symm.trans haction')
  have hmem := List.mem_of_getElem? haction
  rcases (chainActions_hashed hrun action hmem).cases with ⟨hempty, -⟩ | ⟨-, hhash⟩
  · exact absurd hempty hstate
  · refine ⟨(logOf (blocks t)).actions[contract.latestActionId], libs.sha256 action.2.2, action.2.2,
      ?_, fun t' hle => ⟨h.action hle hrecord, ?_⟩⟩
    · rw [hfields]
      exact hhash
    · obtain ⟨batches', ids', hrun'⟩ := hindex t'
      exact ((indexing_consistent hrun' (hsafe t')).states _ _).mpr
        ⟨hstate, rfl, action, chainActions_mono h hle hmem, rfl⟩

variable (h : Growing σ blocks)
  (hindex : ∀ t, ∃ batches ids, Indexing libs (blocks t) batches (σ t) ids)
  (hsafe : ∀ t, NoCollision libs.sha256 ((chainActions (blocks t)).map (fun action => action.2.2)))

include h hindex hsafe

theorem contract_unbroken (addressLibs : AddressLibs) (addr : String) (t : Nat) :
    Unbroken (contract addressLibs addr) σ t := by
  refine failsIn_bind (findContract_unbroken addressLibs addr) (fun found t₁ _ hfound => ?_)
  obtain ⟨address, record⟩ := found
  obtain ⟨moment, hmoment, hget⟩ := findContract_found hfound
  obtain ⟨action, hash, blob, -, hstored⟩ := latest_stored h hindex hsafe hget
  refine failsIn_bind ?_ (fun latest t₂ _ _ => response_unbroken h _ t₂)
  apply failsIn_query
  rw [(hstored t₁ (Nat.le_of_lt hmoment)).1]
  exact failsIn_pure _

theorem contractState_unbroken (addressLibs : AddressLibs) (addr : String) (t : Nat) :
    Unbroken (contractState addressLibs addr) σ t := by
  refine failsIn_bind (findContract_unbroken addressLibs addr) (fun found t₁ _ hfound => ?_)
  obtain ⟨address, record⟩ := found
  obtain ⟨moment, hmoment, hget⟩ := findContract_found hfound
  obtain ⟨action, hash, blob, hhash, hstored⟩ := latest_stored h hindex hsafe hget
  have hread : (contractAction record.latestActionId).run σ t₁ = .ok (action, t₁ + 1) := by
    change (match (σ t₁ .contractActions)[be 8 record.latestActionId]? with
      | none => (.fail (.internal "missing contract action record") : Handler ContractActionRecord)
      | some record => pure record).run σ (t₁ + 1) = _
    rw [(hstored t₁ (Nat.le_of_lt hmoment)).1]
    rfl
  refine failsIn_bind (failsIn_of_ok hread) (fun latest t₂ hle hlatest => ?_)
  rw [hread] at hlatest
  obtain ⟨rfl, rfl⟩ := Prod.mk.inj (Except.ok.inj hlatest)
  rw [hhash]
  apply failsIn_query
  rw [(hstored (t₁ + 1) (by omega)).2]
  exact response_unbroken h _ _

end Endpoints

section Results

variable {L : Type}

/-- The contract pointers and the states by their hashes are consistent after
every run, and no request for a contract meets a missing record or state. -/
theorem contracts_consistent (libs : LedgerLibs L) :
    (∀ blocks batches s ids, Indexing libs blocks batches s ids →
      NoCollision libs.sha256 ((chainActions blocks).map (fun action => action.2.2)) →
      Consistent libs.sha256 s blocks batches) ∧
    ∀ σ blocks, Growing σ blocks →
      (∀ t, ∃ batches ids, Indexing libs (blocks t) batches (σ t) ids) →
      (∀ t, NoCollision libs.sha256 ((chainActions (blocks t)).map (fun action => action.2.2))) →
      ∀ addressLibs addr t, Unbroken (contract addressLibs addr) σ t ∧
        Unbroken (contractState addressLibs addr) σ t :=
  ⟨fun _ _ _ _ hrun hsafe => indexing_consistent hrun hsafe,
    fun _ _ h hindex hsafe addressLibs addr t =>
      ⟨contract_unbroken h hindex hsafe addressLibs addr t,
        contractState_unbroken h hindex hsafe addressLibs addr t⟩⟩

/-- Libraries whose ledger has no content and accepts everything. -/
def emptyLedger : LedgerLibs Unit where
  new _ := .ok ()
  fromGenesis _ _ := .ok ()
  ledgerVersion _ := .v8
  root _ := .ok []
  zswapFirstFree _ := 0
  zswapMerkleTreeRoot _ := ⟨.v8, []⟩
  applyRegularTransaction _ _ _ _ _ _ := .ok (⟨.success, [], [], [], 0⟩, ())
  applySystemTransaction _ _ _ := .ok (⟨[], []⟩, ())
  finalizeApplyTransactions _ _ := .ok ()
  sha256 := sampleSha256
  contractBalances _ _ := none

/-- A deployment, a failed call, and the deployment of a second contract in the
same state. -/
def deployTransaction : RegularTransaction where
  hash := .filled 32 1
  protocolVersion := .v1_0 1000000
  raw := []
  identifiers := []
  contractActions := [⟨[1], [7], .deploy⟩, ⟨[1], [], .call "increment"⟩, ⟨[2], [7], .deploy⟩]

def deployBlock : Block :=
  { emptyBlock 0 zero_lt_u64 with
    ledgerStateRoot := some []
    transactions := [.regular deployTransaction] }

def deployed : List AppliedTransaction :=
  (replayBlock emptyLedger deployBlock (some []) () 0).toOption.elim [] Prod.fst

theorem deployed_replay : replayBlock emptyLedger deployBlock (some []) () 0 = .ok (deployed, (), 0) :=
  rfl

def deployChain : List DerivedBlock :=
  [⟨deployBlock, deployed, fun applied happlied => ((replayBlock_derived deployed_replay).2 applied happlied).1⟩]

def deployBatch : StoreBatch × Counters :=
  (writeBlockBatch fresh deployBlock deployed [] [] (Counters.load fresh)).toOption.getD
    ([], Counters.load fresh)

theorem indexing_deploy :
    Indexing emptyLedger deployChain [deployBatch.1] (commit fresh deployBatch.1) deployBatch.2 :=
  Indexing.start.step _ (some []) () () 0 0 [] [] (by decide +kernel) deployed_replay
    (ok_of_toBool (by decide +kernel) ([], Counters.load fresh))

/-- One blob serves both contracts, and the failed call is no latest action. -/
theorem contracts_consistent_deploy :
    Consistent emptyLedger.sha256 (commit fresh deployBatch.1) deployChain [deployBatch.1] ∧
      statePuts deployBatch.1 = [((emptyLedger.sha256 [7]).val, [7])] ∧
      (commit fresh deployBatch.1 .contracts)[([1] : Bytes)]? = some ⟨0, 0⟩ ∧
      (∀ t, Unbroken (contractState hexLibs "01") (fun _ => commit fresh deployBatch.1) t) := by
  have hsafe : NoCollision emptyLedger.sha256
      ((chainActions deployChain).map (fun action => action.2.2)) := by
    rw [NoCollision]
    decide +kernel
  have hgrowing : Growing (fun _ => commit fresh deployBatch.1) (fun _ => deployChain) := by
    refine growing_still indexing_deploy.run fun i d hd => ?_
    match i with
    | 0 =>
        cases hd
        rfl
    | i + 1 => cases hd
  obtain ⟨hconsistent, hanswered⟩ := contracts_consistent emptyLedger
  refine ⟨hconsistent _ _ _ _ indexing_deploy hsafe, by decide +kernel, by decide +kernel, fun t => ?_⟩
  exact (hanswered _ _ hgrowing (fun _ => ⟨_, _, indexing_deploy⟩) (fun _ => hsafe) hexLibs "01" t).2

end Results

end Nightfrost.ContractLookups
