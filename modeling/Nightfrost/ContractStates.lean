import Nightfrost.IndexBlock

namespace Nightfrost.ContractStates

open ByteOrder Tables Partitions Domain Schema WriteBlock Staging ExceptFold EntityLog BlockStep
  BlockRun IndexBlock

abbrev Action := Bytes × ContractActionRecord × Bytes

section Spec

/-- The id is that of an action of the contract with a state. -/
def Live (actions : List Action) (address : Bytes) (id : Nat) : Prop :=
  ∃ action, actions[id]? = some action ∧ action.1 = address ∧ action.2.2 ≠ []

/-- The first and the last action of the contract that have a state. -/
def Pointed (actions : List Action) (address : Bytes) : Option ContractRecord → Prop
  | none => ∀ id, ¬ Live actions address id
  | some contract =>
      IsLeast {id | Live actions address id} contract.deployActionId ∧
        IsGreatest {id | Live actions address id} contract.latestActionId

/-- The states of the actions, by their hashes, and nothing else. -/
def Addressed (sha256 : Bytes → ByteArr 32) (actions : List Action) (t : Table Bytes) : Prop :=
  ∀ k v, t[k]? = some v ↔ v ≠ [] ∧ k = (sha256 v).val ∧ ∃ action ∈ actions, action.2.2 = v

def statePut : Op Part.Val → Option (Bytes × Bytes)
  | ⟨.contractStates, k, some v⟩ => some (k, v)
  | _ => none

def statePuts (batch : StoreBatch) : List (Bytes × Bytes) := batch.filterMap statePut

/-- The puts that have filled a table of states. -/
structure PutOnce (sha256 : Bytes → ByteArr 32) (puts : List (Bytes × Bytes)) (t : Table Bytes) :
    Prop where
  keys : ∀ put ∈ puts, put.1 = (sha256 put.2).val
  nodup : (puts.map Prod.fst).Nodup
  stored : ∀ k, k ∈ t ↔ k ∈ puts.map Prod.fst

def NoCollision (sha256 : Bytes → ByteArr 32) (states : List Bytes) : Prop :=
  ∀ a ∈ states, ∀ b ∈ states, sha256 a = sha256 b → a = b

variable {sha256 : Bytes → ByteArr 32} {actions : List Action} {action : Action} {address : Bytes}

theorem live_lt {id : Nat} (h : Live actions address id) : id < actions.length := by
  obtain ⟨action, hget, -⟩ := h
  exact (List.getElem?_eq_some_iff.mp hget).1

theorem live_push {id : Nat} : Live (actions ++ [action]) address id ↔
    Live actions address id ∨ (id = actions.length ∧ action.1 = address ∧ action.2.2 ≠ []) := by
  constructor
  · rintro ⟨found, hget, hlive⟩
    by_cases hlt : id < actions.length
    · rw [List.getElem?_append_left hlt] at hget
      exact .inl ⟨found, hget, hlive⟩
    · have hbound := (List.getElem?_eq_some_iff.mp hget).1
      rw [List.length_append, List.length_singleton] at hbound
      obtain rfl : id = actions.length := by omega
      rw [List.getElem?_concat_length] at hget
      obtain rfl := Option.some.inj hget
      exact .inr ⟨rfl, hlive⟩
  · rintro (h | ⟨rfl, hlive⟩)
    · obtain ⟨found, hget, hlive⟩ := h
      refine ⟨found, ?_, hlive⟩
      rw [List.getElem?_append_left (live_lt ⟨found, hget, hlive⟩), hget]
    · exact ⟨action, List.getElem?_concat_length, hlive⟩

theorem Pointed.push_other {c : Option ContractRecord} (h : Pointed actions address c)
    (hother : ¬ (action.1 = address ∧ action.2.2 ≠ [])) : Pointed (actions ++ [action]) address c := by
  have hsame : ∀ id, Live (actions ++ [action]) address id ↔ Live actions address id := by
    intro id
    rw [live_push]
    exact ⟨fun hid => hid.resolve_right fun hnew => hother hnew.2, .inl⟩
  cases c with
  | none => exact fun id hid => h id ((hsame id).mp hid)
  | some contract =>
      simp only [Pointed, hsame]
      exact h

def latest (actionId : Nat) : Option ContractRecord → ContractRecord
  | some contract => { contract with latestActionId := actionId }
  | none => ⟨actionId, actionId⟩

theorem Pointed.push_live {c : Option ContractRecord} (h : Pointed actions address c)
    (haddress : action.1 = address) (hstate : action.2.2 ≠ []) :
    Pointed (actions ++ [action]) address (some (latest actions.length c)) := by
  have hnew : Live (actions ++ [action]) address actions.length :=
    live_push.mpr (.inr ⟨rfl, haddress, hstate⟩)
  have hlast : ∀ id, Live (actions ++ [action]) address id → id ≤ actions.length := by
    intro id hid
    have hlt := live_lt hid
    rw [List.length_append] at hlt
    exact Nat.lt_succ_iff.mp hlt
  cases c with
  | none =>
      have honly : ∀ id, Live (actions ++ [action]) address id → id = actions.length := by
        intro id hid
        rcases live_push.mp hid with hold | hnew
        · exact absurd hold (h id)
        · exact hnew.1
      exact ⟨⟨hnew, fun id hid => (honly id hid).ge⟩, hnew, hlast⟩
  | some contract =>
      refine ⟨⟨live_push.mpr (.inl h.1.1), fun id hid => ?_⟩, hnew, hlast⟩
      rcases live_push.mp hid with hold | ⟨rfl, -⟩
      · exact h.1.2 hold
      · exact (live_lt h.1.1).le

theorem statePuts_append (b c : StoreBatch) : statePuts (b ++ c) = statePuts b ++ statePuts c :=
  List.filterMap_append

theorem statePuts_other {batch : StoreBatch} (h : ∀ o ∈ batch, o.part ≠ .contractStates) :
    statePuts batch = [] := by
  rw [statePuts, List.filterMap_eq_nil_iff]
  intro o ho
  unfold statePut
  split
  · exact absurd rfl (h _ ho)
  · rfl

end Spec

section Quiet

variable {st st' st'' : Staged}

def contractParts : List Part := [.contracts, .contractStates]

/-- A step that writes nothing to the contract tables. -/
structure Quiet (st st' : Staged) : Prop where
  contractsThisBlock : st'.contractsThisBlock = st.contractsThisBlock
  statesThisBlock : st'.statesThisBlock = st.statesThisBlock
  nextActionId : st'.ids.nextActionId = st.ids.nextActionId
  batch : ∃ ops : StoreBatch, st'.batch = st.batch ++ ops ∧ ∀ o ∈ ops, o.part ∉ contractParts

theorem Quiet.refl (st : Staged) : Quiet st st :=
  ⟨rfl, rfl, rfl, [], (List.append_nil _).symm, fun _ ho => absurd ho List.not_mem_nil⟩

theorem Quiet.trans (h : Quiet st st') (h' : Quiet st' st'') : Quiet st st'' := by
  obtain ⟨ops, hops, hparts⟩ := h.batch
  obtain ⟨ops', hops', hparts'⟩ := h'.batch
  refine ⟨h'.contractsThisBlock.trans h.contractsThisBlock,
    h'.statesThisBlock.trans h.statesThisBlock, h'.nextActionId.trans h.nextActionId, ops ++ ops', ?_, ?_⟩
  · rw [hops', hops, List.append_assoc]
  · intro o ho
    rcases List.mem_append.mp ho with ho | ho
    · exact hparts o ho
    · exact hparts' o ho

theorem quiet_put (st : Staged) {p : Part} (hp : p ∉ contractParts) (k : Bytes) (v : p.Val) :
    Quiet st (st.put p k v) := by
  refine ⟨rfl, rfl, rfl, [Op.put p k v], rfl, fun o ho => ?_⟩
  obtain rfl := List.mem_singleton.mp ho
  exact hp

theorem quiet_remove (st : Staged) {p : Part} (hp : p ∉ contractParts) (k : Bytes) :
    Quiet st (st.remove p k) := by
  refine ⟨rfl, rfl, rfl, [Op.remove p k], rfl, fun o ho => ?_⟩
  obtain rfl := List.mem_singleton.mp ho
  exact hp

theorem quiet_foldl {α : Type} {step : Staged → α → Staged} (h : ∀ st a, Quiet st (step st a))
    (as : List α) (st : Staged) : Quiet st (as.foldl step st) := by
  induction as generalizing st with
  | nil => exact .refl st
  | cons a as ih => exact (h st a).trans (ih (step st a))

theorem quiet_foldlM {α : Type} {step : Staged → α → Except String Staged} {as : List α}
    (hrun : as.foldlM step st = .ok st') (h : ∀ st a st', step st a = .ok st' → Quiet st st') :
    Quiet st st' :=
  foldlM_invariant (I := Quiet st) hrun (.refl st) fun a _ _ _ hst hstep => hst.trans (h _ a _ hstep)

theorem stageKeyIndexes_quiet (st : Staged) (applied : AppliedTransaction) (txId : Nat) :
    Quiet st (stageKeyIndexes st applied txId) := by
  have hindex := quiet_put st (p := .walletTxIndices) (by decide) (be 8 txId)
    ⟨applied.zswapStartIndex, applied.zswapEndIndex, applied.protocolVersion⟩
  have hhash := hindex.trans (quiet_put _ (p := .txsByHash) (by decide)
    (prefixedU64Key applied.hash.val txId) ())
  exact hhash.trans (quiet_foldl (fun st identifier =>
    quiet_put st (p := .txsByIdentifier) (by decide) (prefixedU64Key identifier txId) ()) _ _)

theorem createUtxo_quiet (st : Staged) (txId : Nat) (utxo : UnshieldedUtxo) :
    Quiet st (createUtxo txId st utxo) := by
  obtain ⟨-, -, -, ops, hops, hparts⟩ := (quiet_put st (p := .utxos) (by decide)
    (utxoKey utxo.intentHash utxo.outputIndex) ⟨utxo, txId, none⟩).trans
      (quiet_put _ (p := .utxosUnspentByOwner) (by decide) (unspentKey utxo)
        (utxoKey utxo.intentHash utxo.outputIndex))
  exact ⟨rfl, rfl, rfl, ops, hops, hparts⟩

theorem spendUtxo_quiet {s : Store} {txId : Nat} {utxo : UnshieldedUtxo}
    (h : spendUtxo s txId st utxo = .ok st') : Quiet st st' := by
  obtain ⟨record, -, rfl⟩ := spendUtxo_ok.mp h
  obtain ⟨-, -, -, ops, hops, hparts⟩ := (quiet_put st (p := .utxos) (by decide)
    (utxoKey utxo.intentHash utxo.outputIndex) { record with spendingTxId := some txId }).trans
      (quiet_remove _ (p := .utxosUnspentByOwner) (by decide) (unspentKey utxo))
  exact ⟨rfl, rfl, rfl, ops, hops, hparts⟩

theorem stageLedgerEvent_quiet (st : Staged) (height txId eventId : Nat) (event : LedgerEvent) :
    Quiet st (stageLedgerEvent height txId eventId st event) := by
  have hindex : Quiet st (stageContractIndex st event.contractAddress eventId) := by
    unfold stageContractIndex
    split
    · exact quiet_put st (by decide) _ _
    · exact .refl st
  have hdust : ∀ st, Quiet st (stageDustIndex st event.grouping eventId) := by
    intro st
    unfold stageDustIndex
    split
    · exact quiet_put st (by decide) _ _
    · exact .refl st
  have hgeneration : ∀ st, Quiet st (stageDustGeneration st txId event.attributes) := by
    intro st
    unfold stageDustGeneration
    split
    · exact (quiet_put st (by decide) _ _).trans (quiet_put _ (by decide) _ _)
    · exact (quiet_put st (by decide) _ _).trans (quiet_put _ (by decide) _ _)
    · exact .refl st
  exact (hindex.trans (quiet_put _ (by decide) _ _)).trans ((hdust _).trans (hgeneration _))

theorem writeLedgerEvent_quiet {height txId : Nat} {actions : List (Nat × Bytes × ContractAttributes)}
    (st : Staged) (event : LedgerEvent) : Quiet st (writeLedgerEvent height txId actions st event) := by
  have hids : Quiet st { st with ids := { st.ids with nextEventId := increment st.ids.nextEventId } } :=
    ⟨rfl, rfl, rfl, [], (List.append_nil _).symm, fun _ ho => absurd ho List.not_mem_nil⟩
  exact hids.trans (stageLedgerEvent_quiet _ _ _ _ _)

theorem metaOps_part (block : Block) (ids : Counters) (nextWindow : LedgerStateWindow) :
    ∀ o ∈ metaOps block ids nextWindow, o.part = .metadata := by
  intro o ho
  rw [metaOps] at ho
  split at ho <;> revert o <;> simp [Op.put]

def Extends (p : Part) (batch batch' : StoreBatch) : Prop :=
  ∃ ops : StoreBatch, batch' = batch ++ ops ∧ ∀ o ∈ ops, o.part = p

theorem Extends.refl (p : Part) (batch : StoreBatch) : Extends p batch batch :=
  ⟨[], (List.append_nil _).symm, fun _ ho => absurd ho List.not_mem_nil⟩

theorem Extends.trans {p : Part} {b c d : StoreBatch} (h : Extends p b c) (h' : Extends p c d) :
    Extends p b d := by
  obtain ⟨ops, rfl, hops⟩ := h
  obtain ⟨ops', rfl, hops'⟩ := h'
  refine ⟨ops ++ ops', List.append_assoc _ _ _, fun o ho => ?_⟩
  rcases List.mem_append.mp ho with ho | ho
  · exact hops o ho
  · exact hops' o ho

theorem extends_foldl {α : Type} {p : Part} {step : StoreBatch → α → StoreBatch}
    (h : ∀ batch a, Extends p batch (step batch a)) (as : List α) (batch : StoreBatch) :
    Extends p batch (as.foldl step batch) := by
  induction as generalizing batch with
  | nil => exact .refl p batch
  | cons a as ih => exact (h batch a).trans (ih (step batch a))

theorem writeBalance_extends {s : Store} {batch batch' : StoreBatch} {row : Bytes × Int}
    (h : writeBalance s batch row = .ok batch') : Extends .balances batch batch' := by
  obtain ⟨-, rfl⟩ := writeBalance_ok.mp h
  refine ⟨_, rfl, fun o ho => ?_⟩
  obtain rfl := List.mem_singleton.mp ho
  rfl

theorem writeAddress_extends (batch : StoreBatch) (row : Bytes × List Nat) :
    Extends .addrTxs batch (writeAddress batch row) := by
  refine ⟨_, rfl, fun o ho => ?_⟩
  obtain ⟨txId, -, rfl⟩ := List.mem_map.mp ho
  rfl

theorem applyRegistrationEvent_extends (s : Store) (height : Nat) (batch : StoreBatch)
    (event : DustRegistrationEvent) :
    Extends .cnightRegistrations batch (applyRegistrationEvent s height batch event) := by
  refine ⟨_, rfl, fun o ho => ?_⟩
  obtain rfl := List.mem_singleton.mp ho
  rfl

theorem blockBatch_quiet {s : Store} (block : Block) (transactions : List AppliedTransaction)
    (ledgerStateKey : Bytes) (window : LedgerStateWindow) (ids : Counters) {balances : StoreBatch}
    (htail : st.balanceDeltas.toList.foldlM (writeBalance s) st.batch = .ok balances) :
    ∃ ops : StoreBatch,
      blockBatch s block transactions ledgerStateKey window ids st balances = st.batch ++ ops ∧
        ∀ o ∈ ops, o.part ∉ contractParts := by
  obtain ⟨ops, rfl, hops⟩ : Extends .balances st.batch balances :=
    foldlM_invariant (I := Extends .balances st.batch) htail (.refl _ _)
      fun row _ a b ha hb => ha.trans (writeBalance_extends hb)
  obtain ⟨ops', haddresses, hops'⟩ :=
    extends_foldl writeAddress_extends st.touchedAddresses.toList (st.batch ++ ops)
  obtain ⟨ops'', hregistrations, hops''⟩ :=
    extends_foldl (applyRegistrationEvent_extends s block.height) block.dustRegistrationEvents
      (st.batch ++ ops ++ ops')
  rw [blockBatch, haddresses, hregistrations]
  simp only [List.append_assoc]
  refine ⟨_, rfl, fun o ho => ?_⟩
  simp only [List.mem_append, List.mem_cons, List.not_mem_nil, or_false] at ho
  rcases ho with ho | ho | ho | (rfl | rfl) | ho
  · rw [hops o ho]
    decide
  · rw [hops' o ho]
    decide
  · rw [hops'' o ho]
    decide
  · exact (by decide : Part.blocks ∉ contractParts)
  · exact (by decide : Part.blocksByHash ∉ contractParts)
  · rw [metaOps_part _ _ _ o ho]
    decide

end Quiet

section Tracked

structure Contracts (s : Store) (st : Staged) (actions : List Action) : Prop where
  pointed : ∀ address, Pointed actions address (pending s st .contracts)[address]?
  mirrors : Mirrors st.contractsThisBlock (s .contracts) (pending s st .contracts)

structure States (sha256 : Bytes → ByteArr 32) (s : Store) (before : List (Bytes × Bytes))
    (st : Staged) (actions : List Action) : Prop where
  addressed : Addressed sha256 actions (pending s st .contractStates)
  cached : ∀ k, k ∈ pending s st .contractStates ↔ k ∈ st.statesThisBlock ∨ k ∈ s .contractStates
  puts : PutOnce sha256 (before ++ statePuts st.batch) (pending s st .contractStates)

structure Tracked (sha256 : Bytes → ByteArr 32) (s : Store) (before : List (Bytes × Bytes))
    (st : Staged) (actions : List Action) : Prop where
  counter : st.ids.nextActionId = actions.length
  contracts : Contracts s st actions
  states : States sha256 s before st actions

variable {sha256 : Bytes → ByteArr 32} {s : Store} {before : List (Bytes × Bytes)}
  {st st' : Staged} {actions : List Action} {action : Action}

theorem Quiet.pending (h : Quiet st st') : ∀ p ∈ contractParts, pending s st' p = pending s st p := by
  obtain ⟨ops, hops, hparts⟩ := h.batch
  intro p hp
  rw [Staging.pending, hops, commit_append]
  exact commit_other fun o ho he => hparts o ho (by rw [← he]; exact hp)

theorem Quiet.statePuts (h : Quiet st st') : statePuts st'.batch = statePuts st.batch := by
  obtain ⟨ops, hops, hparts⟩ := h.batch
  have hnone : ContractStates.statePuts ops = [] :=
    statePuts_other fun o ho he => hparts o ho (by rw [he]; decide)
  rw [hops, statePuts_append, hnone, List.append_nil]

theorem Contracts.quiet (h : Contracts s st actions) (hquiet : Quiet st st') :
    Contracts s st' actions := by
  have hview := hquiet.pending (s := s) .contracts (by decide)
  refine ⟨fun address => ?_, ?_⟩
  · rw [hview]
    exact h.pointed address
  · rw [hquiet.contractsThisBlock, hview]
    exact h.mirrors

theorem States.quiet (h : States sha256 s before st actions) (hquiet : Quiet st st') :
    States sha256 s before st' actions := by
  have hview := hquiet.pending (s := s) .contractStates (by decide)
  refine ⟨?_, fun k => ?_, ?_⟩
  · rw [hview]
    exact h.addressed
  · rw [hquiet.statesThisBlock, hview]
    exact h.cached k
  · rw [hquiet.statePuts, hview]
    exact h.puts

theorem Tracked.quiet (h : Tracked sha256 s before st actions) (hquiet : Quiet st st') :
    Tracked sha256 s before st' actions :=
  ⟨hquiet.nextActionId.trans h.counter, h.contracts.quiet hquiet, h.states.quiet hquiet⟩

def HashedAction (sha256 : Bytes → ByteArr 32) (action : Action) : Prop :=
  action.2.1.stateHash = if action.2.2.isEmpty then none else some (sha256 action.2.2)

theorem HashedAction.cases (h : HashedAction sha256 action) :
    (action.2.2 = [] ∧ action.2.1.stateHash = none) ∨
      (action.2.2 ≠ [] ∧ action.2.1.stateHash = some (sha256 action.2.2)) := by
  by_cases hstate : action.2.2 = []
  · refine .inl ⟨hstate, ?_⟩
    rw [h, if_pos (List.isEmpty_iff.mpr hstate)]
  · refine .inr ⟨hstate, ?_⟩
    rw [h, if_neg fun hempty => hstate (List.isEmpty_iff.mp hempty)]

theorem stageContract_contracts (h : Contracts s st actions) (hhash : HashedAction sha256 action) :
    Contracts s (stageContract s st action.2.1.stateHash action.1 actions.length)
      (actions ++ [action]) := by
  rcases hhash.cases with ⟨hstate, hnone⟩ | ⟨hstate, hsome⟩
  · rw [hnone]
    exact ⟨fun address => (h.pointed address).push_other fun hlive => hlive.2 hstate, h.mirrors⟩
  · rw [hsome]
    have hrecord : (match overlay st.contractsThisBlock (s .contracts) action.1 with
        | some contract => { contract with latestActionId := actions.length }
        | none => (⟨actions.length, actions.length⟩ : ContractRecord)) =
        latest actions.length (pending s st .contracts)[action.1]? := by
      rw [h.mirrors action.1]
      cases overlay st.contractsThisBlock (s .contracts) action.1 <;> rfl
    have hview : pending s (stageContract s st (some (sha256 action.2.2)) action.1 actions.length)
        .contracts = (pending s st .contracts).insert action.1
          (latest actions.length (pending s st .contracts)[action.1]?) := by
      rw [← hrecord]
      exact pending_put_same s st .contracts _ _
    constructor
    · intro address
      rw [hview, get_insert]
      by_cases haddress : action.1 = address
      · rw [if_pos haddress, haddress]
        exact (h.pointed address).push_live haddress hstate
      · rw [if_neg haddress]
        exact (h.pointed address).push_other fun hlive => haddress hlive.1
    · rw [hview, ← hrecord]
      exact h.mirrors.insert _ _

theorem Addressed.push_known {t : Table Bytes} (h : Addressed sha256 actions t)
    (hknown : action.2.2 = [] ∨ ∃ old ∈ actions, old.2.2 = action.2.2) :
    Addressed sha256 (actions ++ [action]) t := by
  intro k v
  rw [h k v]
  refine and_congr_right fun hv => and_congr_right fun _ => ?_
  constructor
  · rintro ⟨old, hold, rfl⟩
    exact ⟨old, List.mem_append_left _ hold, rfl⟩
  · rintro ⟨found, hfound, rfl⟩
    rcases List.mem_append.mp hfound with hold | hnew
    · exact ⟨found, hold, rfl⟩
    · obtain rfl := List.mem_singleton.mp hnew
      exact hknown.resolve_left hv

theorem Addressed.push_new {t : Table Bytes} (h : Addressed sha256 actions t)
    (hstate : action.2.2 ≠ []) (hnew : (sha256 action.2.2).val ∉ t) :
    Addressed sha256 (actions ++ [action]) (t.insert (sha256 action.2.2).val action.2.2) := by
  intro k v
  rw [get_insert]
  by_cases hk : (sha256 action.2.2).val = k
  · subst hk
    rw [if_pos rfl]
    constructor
    · intro hv
      obtain rfl := Option.some.inj hv
      exact ⟨hstate, rfl, action, List.mem_append_right _ List.mem_cons_self, rfl⟩
    · rintro ⟨hv, hkey, found, hfound, rfl⟩
      rcases List.mem_append.mp hfound with hold | hlast
      · have hstored := (h _ _).mpr ⟨hv, rfl, found, hold, rfl⟩
        rw [← hkey] at hstored
        exact absurd (mem_iff.mpr ⟨_, hstored⟩) hnew
      · rw [List.mem_singleton.mp hlast]
  · rw [if_neg hk, h k v]
    refine and_congr_right fun hv => and_congr_right fun hkey => ?_
    constructor
    · rintro ⟨old, hold, rfl⟩
      exact ⟨old, List.mem_append_left _ hold, rfl⟩
    · rintro ⟨found, hfound, rfl⟩
      rcases List.mem_append.mp hfound with hold | hlast
      · exact ⟨found, hold, rfl⟩
      · rw [List.mem_singleton.mp hlast] at hkey
        exact absurd hkey.symm hk

theorem PutOnce.push {puts : List (Bytes × Bytes)} {t : Table Bytes} (h : PutOnce sha256 puts t)
    {state : Bytes} (hnew : (sha256 state).val ∉ t) :
    PutOnce sha256 (puts ++ [((sha256 state).val, state)]) (t.insert (sha256 state).val state) := by
  refine ⟨fun put hput => ?_, ?_, fun k => ?_⟩
  · rcases List.mem_append.mp hput with hput | hput
    · exact h.keys put hput
    · rw [List.mem_singleton.mp hput]
  · rw [List.map_append, List.map_singleton, List.nodup_append]
    refine ⟨h.nodup, List.nodup_singleton _, fun k hk k' hk' he => hnew ?_⟩
    have hkey : k = (sha256 state).val := he.trans (List.mem_singleton.mp hk')
    rw [← hkey]
    exact (h.stored k).mpr hk
  · rw [Tables.mem_insert, h.stored k, List.map_append, List.map_singleton, List.mem_append,
      List.mem_singleton, or_comm, eq_comm]

/-- A state whose hash is present is the state that is stored, as no two of the
states collide. -/
theorem Addressed.known {t : Table Bytes} (h : Addressed sha256 actions t) {states : List Bytes}
    (hsafe : NoCollision sha256 states) (hactions : ∀ old ∈ actions ++ [action], old.2.2 ∈ states)
    (hmem : (sha256 action.2.2).val ∈ t) : ∃ old ∈ actions, old.2.2 = action.2.2 := by
  obtain ⟨v, hv⟩ := mem_iff.mp hmem
  obtain ⟨-, hkey, old, hold, rfl⟩ := (h _ _).mp hv
  refine ⟨old, hold, hsafe _ (hactions old (List.mem_append_left _ hold)) _
    (hactions action (List.mem_append_right _ List.mem_cons_self)) ?_⟩
  exact Subtype.ext hkey.symm

theorem stageState_states (h : States sha256 s before st actions) (hhash : HashedAction sha256 action)
    {states : List Bytes} (hsafe : NoCollision sha256 states)
    (hactions : ∀ old ∈ actions ++ [action], old.2.2 ∈ states) :
    States sha256 s before (stageState s st action.2.1.stateHash action.2.2) (actions ++ [action]) := by
  rcases hhash.cases with ⟨hstate, hnone⟩ | ⟨hstate, hsome⟩
  · rw [hnone]
    exact ⟨h.addressed.push_known (.inl hstate), h.cached, h.puts⟩
  · rw [hsome, stageState]
    dsimp only
    split
    · rename_i hnew
      have hmissing : (sha256 action.2.2).val ∉ pending s st .contractStates :=
        fun hmem => ((h.cached _).mp hmem).elim hnew.1 hnew.2
      have hview : pending s (st.put .contractStates (sha256 action.2.2).val action.2.2)
          .contractStates = (pending s st .contractStates).insert (sha256 action.2.2).val
            action.2.2 := pending_put_same s st .contractStates _ _
      have hputs : statePuts (st.put .contractStates (sha256 action.2.2).val action.2.2).batch =
          statePuts st.batch ++ [((sha256 action.2.2).val, action.2.2)] :=
        statePuts_append st.batch _
      refine ⟨?_, fun k => ?_, ?_⟩
      · exact hview ▸ h.addressed.push_new hstate hmissing
      · refine (congrArg (fun t => k ∈ t) hview).to_iff.trans ?_
        rw [Tables.mem_insert, h.cached k, Tables.mem_insert, or_assoc]
      · have hput := h.puts.push hmissing
        rw [List.append_assoc, ← hputs, ← hview] at hput
        exact hput
    · rename_i hold
      rw [not_and_or, not_not, not_not] at hold
      exact ⟨h.addressed.push_known (.inr (h.addressed.known hsafe hactions ((h.cached _).mpr hold))),
        h.cached, h.puts⟩

theorem stageState_contracts (h : Contracts s st actions) (stateHash : Option (ByteArr 32))
    (state : Bytes) : Contracts s (stageState s st stateHash state) actions := by
  have hview : pending s (stageState s st stateHash state) .contracts = pending s st .contracts :=
    (stageState_frame (by decide) stateHash state).1
  have hcache : (stageState s st stateHash state).contractsThisBlock = st.contractsThisBlock := by
    unfold stageState
    split
    · split <;> rfl
    · rfl
  refine ⟨fun address => ?_, ?_⟩
  · rw [hview]
    exact h.pointed address
  · rw [hcache, hview]
    exact h.mirrors

theorem stageContract_states (h : States sha256 s before st actions)
    (stateHash : Option (ByteArr 32)) (address : Bytes) (actionId : Nat) :
    States sha256 s before (stageContract s st stateHash address actionId) actions := by
  have hview : pending s (stageContract s st stateHash address actionId) .contractStates =
      pending s st .contractStates :=
    (stageContract_frame (by decide) stateHash address actionId).1
  have hcache : (stageContract s st stateHash address actionId).statesThisBlock =
      st.statesThisBlock := by
    unfold stageContract
    split <;> rfl
  have hputs : statePuts (stageContract s st stateHash address actionId).batch =
      statePuts st.batch := by
    unfold stageContract
    split
    · rfl
    · exact (statePuts_append _ _).trans (List.append_nil _)
  refine ⟨?_, fun k => ?_, ?_⟩
  · rw [hview]
    exact h.addressed
  · rw [hview, hcache]
    exact h.cached k
  · rw [hview, hputs]
    exact h.puts

theorem writeContractAction_tracked {txId : Nat} {acc : Staged × List Nat}
    (hroom : (actions ++ [action]).length < 2 ^ 64)
    (h : Tracked sha256 s before acc.1 actions) (hhash : HashedAction sha256 action)
    {states : List Bytes} (hsafe : NoCollision sha256 states)
    (hactions : ∀ old ∈ actions ++ [action], old.2.2 ∈ states) :
    Tracked sha256 s before (writeContractAction s txId acc action).1 (actions ++ [action]) := by
  rw [List.length_append, List.length_singleton] at hroom
  have hids := h.counter
  have hcontracts : Contracts s { acc.1 with ids :=
      { acc.1.ids with nextActionId := increment acc.1.ids.nextActionId } } actions :=
    ⟨h.contracts.pointed, h.contracts.mirrors⟩
  have hstates : States sha256 s before { acc.1 with ids :=
      { acc.1.ids with nextActionId := increment acc.1.ids.nextActionId } } actions :=
    ⟨h.states.addressed, h.states.cached, h.states.puts⟩
  have hquiet := (quiet_put { acc.1 with ids :=
      { acc.1.ids with nextActionId := increment acc.1.ids.nextActionId } } (p := .contractActions)
      (by decide) (be 8 acc.1.ids.nextActionId) { action.2.1 with txId }).trans
    (quiet_put _ (p := .contractActionsByAddr) (by decide)
      (prefixedU64Key action.1 acc.1.ids.nextActionId) ())
  refine ⟨?_, ?_, ?_⟩
  · rw [writeContractAction]
    dsimp only
    rw [stageContractAction_ids, hids, increment_eq hroom, List.length_append, List.length_singleton]
  · rw [writeContractAction]
    dsimp only
    rw [hids]
    exact stageContract_contracts (stageState_contracts (hcontracts.quiet (hids ▸ hquiet)) _ _) hhash
  · exact stageContract_states (stageState_states (hstates.quiet hquiet) hhash hsafe hactions) _ _ _

theorem writeTransaction_tracked {height : Nat} {applied : AppliedTransaction} {index : Nat}
    (hrun : writeTransaction s height st (applied, index) = .ok st')
    (h : Tracked sha256 s before st actions) (hhash : Hashed sha256 applied) {states : List Bytes}
    (hroom : (actions ++ applied.contractActions).length < 2 ^ 64) (hsafe : NoCollision sha256 states)
    (hactions : ∀ action ∈ actions ++ applied.contractActions, action.2.2 ∈ states) :
    Tracked sha256 s before st' (actions ++ applied.contractActions) := by
  obtain ⟨st₁, st₂, ids, st₃, h₁, h₂, h₃, rfl⟩ := writeTransaction_ok.mp hrun
  have hids : Quiet st { st with ids := { st.ids with nextTxId := increment st.ids.nextTxId } } :=
    ⟨rfl, rfl, rfl, [], (List.append_nil _).symm, fun _ ho => absurd ho List.not_mem_nil⟩
  have hquiet : Quiet st st₁ :=
    (hids.trans (stageKeyIndexes_quiet _ applied _)).trans
      ((quiet_foldl (fun a utxo => createUtxo_quiet a st.ids.nextTxId utxo) _ _).trans
        (quiet_foldlM h₁ fun _ _ _ hspend => spendUtxo_quiet hspend))
  have hloop : Tracked sha256 s before st₂ (actions ++ applied.contractActions) := by
    refine foldl_split h₂ (I := fun done acc => Tracked sha256 s before acc.1 (actions ++ done)) ?_ ?_
    · rw [List.append_nil]
      exact h.quiet hquiet
    · rintro done action rest acc hcut hdone
      rw [hcut, List.append_cons, ← List.append_assoc, ← List.append_assoc] at hroom hactions
      rw [← List.append_assoc]
      refine writeContractAction_tracked ?_ hdone (hhash action ?_) hsafe fun old hold => ?_
      · rw [List.length_append] at hroom
        exact Nat.lt_of_le_of_lt (Nat.le_add_right _ _) hroom
      · rw [hcut]
        exact List.mem_append_right _ List.mem_cons_self
      · exact hactions old (List.mem_append_left _ hold)
  have hevents : Quiet st₂ st₃ := by
    rw [← h₃]
    exact quiet_foldl (fun a event => writeLedgerEvent_quiet a event) _ _
  exact (hloop.quiet hevents).quiet (quiet_put st₃ (p := .txs) (by decide) _ _)

theorem writeTransactions_tracked {height : Nat} {transactions : List AppliedTransaction}
    (hrun : transactions.zipIdx.foldlM (writeTransaction s height) st = .ok st')
    (h : Tracked sha256 s before st actions) (hhash : ∀ applied ∈ transactions, Hashed sha256 applied)
    {states : List Bytes} (hroom : (actions ++ transactions.flatMap (·.contractActions)).length < 2 ^ 64)
    (hsafe : NoCollision sha256 states)
    (hactions : ∀ action ∈ actions ++ transactions.flatMap (·.contractActions),
      action.2.2 ∈ states) :
    Tracked sha256 s before st' (actions ++ transactions.flatMap (·.contractActions)) := by
  have hall := foldlM_split hrun (I := fun done a =>
    Tracked sha256 s before a (actions ++ (done.map Prod.fst).flatMap (·.contractActions))) ?_ ?_
  · rw [List.zipIdx_map_fst] at hall
    exact hall
  · rw [List.map_nil, List.flatMap_nil, List.append_nil]
    exact h
  · rintro done ⟨applied, index⟩ rest a b hcut hdone hb
    have hcut' : transactions = done.map Prod.fst ++ [applied] ++ rest.map Prod.fst := by
      rw [← List.zipIdx_map_fst 0 transactions, hcut, List.map_append, List.map_cons, ← List.append_cons]
    rw [hcut', List.flatMap_append, List.flatMap_append, List.flatMap_singleton, ← List.append_assoc,
      ← List.append_assoc] at hroom hactions
    rw [List.map_append, List.flatMap_append, ← List.append_assoc]
    rw [List.map_singleton, List.flatMap_singleton]
    refine writeTransaction_tracked hb hdone (hhash applied ?_) ?_ hsafe fun action haction => ?_
    · rw [hcut']
      exact List.mem_append_left _ (List.mem_append_right _ List.mem_cons_self)
    · rw [List.length_append] at hroom
      exact Nat.lt_of_le_of_lt (Nat.le_add_right _ _) hroom
    · exact hactions action (List.mem_append_left _ haction)

end Tracked

section Runs

/-- The contract actions of a chain, in id order, with the states they had. -/
def chainActions (blocks : List DerivedBlock) : List Action :=
  blocks.flatMap fun d => d.transactions.flatMap (·.contractActions)

structure Held (sha256 : Bytes → ByteArr 32) (s : Store) (ids : Counters)
    (puts : List (Bytes × Bytes)) (actions : List Action) : Prop where
  counter : ids.nextActionId = actions.length
  pointed : ∀ address, Pointed actions address (s .contracts)[address]?
  addressed : Addressed sha256 actions (s .contractStates)
  puts : PutOnce sha256 puts (s .contractStates)

variable {sha256 : Bytes → ByteArr 32} {s : Store} {ids ids' : Counters} {puts : List (Bytes × Bytes)}
  {actions : List Action}

theorem Held.start : Held sha256 fresh (Counters.load fresh) [] [] where
  counter := by decide
  pointed := by
    intro address
    rw [show (fresh .contracts)[address]? = none from get_empty address]
    rintro id ⟨action, hget, -⟩
    cases hget
  addressed := by
    intro k v
    rw [show (fresh .contractStates)[k]? = none from get_empty k]
    constructor
    · intro h
      cases h
    · rintro ⟨-, -, action, haction, -⟩
      cases haction
  puts := by
    refine ⟨fun _ ha => absurd ha List.not_mem_nil, List.nodup_nil, fun k => ?_⟩
    rw [mem_iff, show (fresh .contractStates)[k]? = none from get_empty k]
    constructor
    · rintro ⟨v, hv⟩
      cases hv
    · intro hk
      cases hk

theorem Held.congr {s' : Store} (h : Held sha256 s ids puts actions)
    (hparts : ∀ p, p ∉ walletParts → s' p = s p) : Held sha256 s' ids puts actions := by
  have hcontracts := hparts .contracts (by decide)
  have hstates := hparts .contractStates (by decide)
  refine ⟨h.counter, ?_, ?_, ?_⟩
  · rw [hcontracts]
    exact h.pointed
  · rw [hstates]
    exact h.addressed
  · rw [hstates]
    exact h.puts

theorem Held.block {d : DerivedBlock} {ledgerStateKey : Bytes} {window : LedgerStateWindow}
    {batch : StoreBatch} (h : Held sha256 s ids puts actions) (hroom : Room ids d.transactions)
    (hbatch : writeBlockBatch s d.block d.transactions ledgerStateKey window ids = .ok (batch, ids'))
    (hhash : ∀ applied ∈ d.transactions, Hashed sha256 applied) {states : List Bytes}
    (hsafe : NoCollision sha256 states)
    (hactions : ∀ action ∈ actions ++ d.transactions.flatMap (·.contractActions),
      action.2.2 ∈ states) :
    Held sha256 (commit s batch) ids' (puts ++ statePuts batch)
      (actions ++ d.transactions.flatMap (·.contractActions)) := by
  obtain ⟨st, balances, hloop, htail, rfl, rfl⟩ := writeBlockBatch_ok.mp hbatch
  have hstart : Tracked sha256 s puts (Staged.start ids) actions := by
    refine ⟨h.counter, ⟨h.pointed, Mirrors.start _⟩, h.addressed, fun k => ?_, ?_⟩
    · refine ⟨.inr, fun hk => hk.resolve_left fun hnone => ?_⟩
      obtain ⟨v, hv⟩ := mem_iff.mp hnone
      rw [show (Staged.start ids).statesThisBlock[k]? = none from get_empty k] at hv
      cases hv
    · rw [show statePuts (Staged.start ids).batch = [] from rfl, List.append_nil]
      exact h.puts
  have hids : (actions ++ d.transactions.flatMap (·.contractActions)).length < 2 ^ 64 := by
    rw [List.length_append, ← h.counter]
    exact hroom.actions
  have hdone := writeTransactions_tracked hloop hstart hhash hids hsafe hactions
  obtain ⟨ops, hops, hparts⟩ :=
    blockBatch_quiet d.block d.transactions ledgerStateKey window ids htail
  have hquiet : Quiet st { st with batch := st.batch ++ ops } := ⟨rfl, rfl, rfl, ops, rfl, hparts⟩
  have hnext := hdone.quiet hquiet
  rw [hops]
  exact ⟨hdone.counter, hnext.contracts.pointed, hnext.states.addressed, hnext.states.puts⟩

variable {L : Type} {libs : LedgerLibs L} {blocks : List DerivedBlock} {batches : List StoreBatch}

theorem indexing_held (hrun : Indexing libs blocks batches s ids)
    {states : List Bytes} (hsafe : NoCollision libs.sha256 states)
    (hactions : ∀ action ∈ chainActions blocks, action.2.2 ∈ states) :
    Held libs.sha256 s ids (statePuts batches.flatten) (chainActions blocks) := by
  induction hrun with
  | start => exact .start
  | step d genesisLedgerState ledger ledger' ts ts' ledgerStateKey window h hroom hreplay hbatch ih =>
      rw [chainActions, List.flatMap_append, List.flatMap_singleton] at hactions ⊢
      have hprev := ih fun action haction => hactions action (List.mem_append_left _ haction)
      rw [List.flatten_append, List.flatten_singleton, statePuts_append]
      exact hprev.block hroom hbatch
        (fun applied happlied => ((replayBlock_derived hreplay).2 applied happlied).2) hsafe hactions
  | scan h hscan ih => exact (ih hactions).congr hscan

theorem logOf_actions (blocks : List DerivedBlock) :
    List.Forall₂ (fun (record : ContractActionRecord) (action : Action) =>
      record = { action.2.1 with txId := record.txId }) (logOf blocks).actions (chainActions blocks) := by
  have hall : List.Forall₂ (fun (record : ContractActionRecord) (action : Action) =>
      record = { action.2.1 with txId := record.txId }) (logOf blocks).actions
        ((blocks.flatMap DerivedBlock.transactions).flatMap AppliedTransaction.contractActions) := by
    refine logOf_replay (P := fun log applied =>
      List.Forall₂ (fun (record : ContractActionRecord) (action : Action) =>
        record = { action.2.1 with txId := record.txId }) log.actions
          (applied.flatMap AppliedTransaction.contractActions)) .nil (fun _ _ _ h => h) ?_
    intro d _ entry _ log applied h
    rw [List.flatMap_append, List.flatMap_singleton]
    apply List.rel_append h
    rw [newActions, List.forall₂_map_left_iff, List.forall₂_same]
    exact fun _ _ => rfl
  rw [List.flatMap_assoc] at hall
  exact hall

/-- The contract tables agree with each other and with the actions of the chain. -/
structure Consistent (sha256 : Bytes → ByteArr 32) (s : Store) (blocks : List DerivedBlock)
    (batches : List StoreBatch) : Prop where
  contracts : ∀ address, address ∈ s .contracts ↔
    ∃ action ∈ chainActions blocks, action.1 = address ∧ action.2.2 ≠ []
  pointers : ∀ address contract, (s .contracts)[address]? = some contract →
    IsLeast {id | Live (chainActions blocks) address id} contract.deployActionId ∧
      IsGreatest {id | Live (chainActions blocks) address id} contract.latestActionId
  actions : ∀ id record, (s .contractActions)[be 8 id]? = some record → id < 2 ^ 64 →
    ∃ action, (chainActions blocks)[id]? = some action ∧ record.address = action.1 ∧
      (record.stateHash = none ↔ action.2.2 = []) ∧
      ∀ hash, record.stateHash = some hash →
        hash = sha256 action.2.2 ∧ (s .contractStates)[hash.val]? = some action.2.2
  states : Addressed sha256 (chainActions blocks) (s .contractStates)
  putOnce : ((statePuts batches.flatten).map Prod.snd).Nodup ∧
    ∀ put ∈ statePuts batches.flatten, put.1 = (sha256 put.2).val

theorem chainActions_hashed (hrun : Indexing libs blocks batches s ids) :
    ∀ action ∈ chainActions blocks, HashedAction libs.sha256 action := by
  intro action haction
  obtain ⟨d, hd, haction⟩ := List.mem_flatMap.mp haction
  obtain ⟨applied, happlied, haction⟩ := List.mem_flatMap.mp haction
  exact hrun.hashed d hd applied happlied action haction

theorem chainActions_address (blocks : List DerivedBlock) :
    ∀ action ∈ chainActions blocks, action.2.1.address = action.1 := by
  intro action haction
  obtain ⟨d, hd, haction⟩ := List.mem_flatMap.mp haction
  obtain ⟨applied, happlied, haction⟩ := List.mem_flatMap.mp haction
  exact (d.derived applied happlied action haction).1

theorem action_of_record {id : Nat} {record : ContractActionRecord}
    (hget : (logOf blocks).actions[id]? = some record) :
    ∃ action, (chainActions blocks)[id]? = some action ∧
      record = { action.2.1 with txId := record.txId } := by
  have hall := logOf_actions blocks
  have hlt := (List.getElem?_eq_some_iff.mp hget).1
  have hlt' : id < (chainActions blocks).length := by
    rw [← hall.length_eq]
    exact hlt
  refine ⟨(chainActions blocks)[id], List.getElem?_eq_getElem hlt', ?_⟩
  have hrel := hall.get hlt hlt'
  rw [List.get_eq_getElem, List.get_eq_getElem, (List.getElem?_eq_some_iff.mp hget).2] at hrel
  exact hrel

theorem indexing_consistent (hrun : Indexing libs blocks batches s ids)
    (hsafe : NoCollision libs.sha256 ((chainActions blocks).map (fun action => action.2.2))) :
    Consistent libs.sha256 s blocks batches := by
  have hheld := indexing_held hrun hsafe fun action haction => List.mem_map_of_mem haction
  have hpointed := hheld.pointed
  refine ⟨fun address => ?_, fun address contract hget => ?_, fun id record hget hid => ?_,
    hheld.addressed, ?_, hheld.puts.keys⟩
  · have hat := hpointed address
    constructor
    · intro hmem
      obtain ⟨contract, hcontract⟩ := mem_iff.mp hmem
      rw [hcontract] at hat
      obtain ⟨action, hget, haddress, hstate⟩ := hat.1.1
      exact ⟨action, List.mem_of_getElem? hget, haddress, hstate⟩
    · rintro ⟨action, haction, haddress, hstate⟩
      obtain ⟨id, hid⟩ := List.mem_iff_getElem?.mp haction
      cases hcontract : (s .contracts)[address]? with
      | none =>
          rw [hcontract] at hat
          exact absurd ⟨action, hid, haddress, hstate⟩ (hat id)
      | some contract => exact mem_iff.mpr ⟨contract, hcontract⟩
  · have hat := hpointed address
    rw [hget] at hat
    exact hat
  · rw [hrun.run.holds.tables.actions.records.get id hid] at hget
    obtain ⟨action, haction, hrecord⟩ := action_of_record hget
    have hmem := List.mem_of_getElem? haction
    have hhash : record.stateHash = action.2.1.stateHash := by rw [hrecord]
    refine ⟨action, haction, ?_, ?_, fun hash hsome => ?_⟩
    · rw [hrecord]
      exact chainActions_address blocks action hmem
    · rw [hhash]
      rcases (chainActions_hashed hrun action hmem).cases with ⟨hstate, hnone⟩ | ⟨hstate, hsome⟩
      · exact ⟨fun _ => hstate, fun _ => hnone⟩
      · rw [hsome]
        exact ⟨fun h => (nomatch h), fun h => absurd h hstate⟩
    · rw [hhash] at hsome
      rcases (chainActions_hashed hrun action hmem).cases with ⟨-, hnone⟩ | ⟨hstate, hsome'⟩
      · rw [hnone] at hsome
        cases hsome
      · rw [hsome'] at hsome
        obtain rfl := Option.some.inj hsome
        exact ⟨rfl, (hheld.addressed _ _).mpr ⟨hstate, rfl, action, hmem, rfl⟩⟩
  · have hkeys : (statePuts batches.flatten).map Prod.fst =
        ((statePuts batches.flatten).map Prod.snd).map (fun state => (libs.sha256 state).val) := by
      rw [List.map_map]
      exact List.map_congr_left hheld.puts.keys
    have hnodup := hheld.puts.nodup
    rw [hkeys] at hnodup
    exact hnodup.of_map _

end Runs

end Nightfrost.ContractStates
