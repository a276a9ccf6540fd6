import Nightfrost.WriteBlock
import Nightfrost.ExceptFold

namespace Nightfrost.Staging

open ByteOrder Tables Partitions Domain Schema WriteBlock ExceptFold

/-- The store as it will be once the pending batch commits. -/
def pending (s : Store) (st : Staged) : Store := commit s st.batch

@[simp] theorem pending_start (s : Store) (ids : Counters) : pending s (Staged.start ids) = s := rfl

@[simp] theorem pending_put_same (s : Store) (st : Staged) (p : Part) (k : Bytes) (v : p.Val) :
    pending s (st.put p k v) p = (pending s st p).insert k v := by
  simp [pending, Staged.put]

@[simp] theorem pending_put_other (s : Store) (st : Staged) {p q : Part} (h : q ≠ p) (k : Bytes)
    (v : p.Val) : pending s (st.put p k v) q = pending s st q := by
  simp [pending, Staged.put, h]

@[simp] theorem pending_remove_same (s : Store) (st : Staged) (p : Part) (k : Bytes) :
    pending s (st.remove p k) p = (pending s st p).erase k := by
  simp [pending, Staged.remove]

@[simp] theorem pending_remove_other (s : Store) (st : Staged) {p q : Part} (h : q ≠ p) (k : Bytes) :
    pending s (st.remove p k) q = pending s st q := by
  simp [pending, Staged.remove, h]

@[simp] theorem pending_addDelta (s : Store) (st : Staged) (utxo : UnshieldedUtxo) (x : Int) :
    pending s (st.addDelta utxo x) = pending s st := rfl

@[simp] theorem pending_touch (s : Store) (st : Staged) (owner : ByteArr 32) (txId : Nat) :
    pending s (st.touch owner txId) = pending s st := rfl

@[simp] theorem pending_stageUtxo (s : Store) (st : Staged) (key : Bytes) (record : UtxoRecord) :
    pending s (st.stageUtxo key record) = pending s (st.put .utxos key record) := rfl

@[simp] theorem pending_with_ids (s : Store) (st : Staged) (ids : Counters) :
    pending s { st with ids } = pending s st := rfl

section Ids

def idsAfter (ids : Counters) (transactions : List AppliedTransaction) : Counters where
  nextTxId := ids.nextTxId + transactions.length
  nextActionId := ids.nextActionId + (transactions.flatMap AppliedTransaction.contractActions).length
  nextEventId := ids.nextEventId + (transactions.flatMap AppliedTransaction.ledgerEvents).length

structure Room (ids : Counters) (transactions : List AppliedTransaction) : Prop where
  txs : (idsAfter ids transactions).nextTxId < 2 ^ 64
  actions : (idsAfter ids transactions).nextActionId < 2 ^ 64
  events : (idsAfter ids transactions).nextEventId < 2 ^ 64

variable {ids : Counters} {transactions : List AppliedTransaction}

theorem room_iff : Room ids transactions ↔
    (idsAfter ids transactions).nextTxId < 2 ^ 64 ∧
      (idsAfter ids transactions).nextActionId < 2 ^ 64 ∧
      (idsAfter ids transactions).nextEventId < 2 ^ 64 :=
  ⟨fun h => ⟨h.txs, h.actions, h.events⟩, fun h => ⟨h.1, h.2.1, h.2.2⟩⟩

instance : Decidable (Room ids transactions) := decidable_of_iff _ room_iff.symm

theorem idsAfter_append (ids : Counters) (done rest : List AppliedTransaction) :
    idsAfter ids (done ++ rest) = idsAfter (idsAfter ids done) rest := by
  simp [idsAfter, Nat.add_assoc]

theorem Room.behind {done rest : List AppliedTransaction} {applied : AppliedTransaction}
    (h : Room ids (done ++ applied :: rest)) : Room (idsAfter ids done) [applied] := by
  obtain ⟨h₁, h₂, h₃⟩ := h
  rw [List.append_cons, idsAfter_append, idsAfter_append] at h₁ h₂ h₃
  exact ⟨Nat.lt_of_le_of_lt (Nat.le_add_right _ _) h₁, Nat.lt_of_le_of_lt (Nat.le_add_right _ _) h₂,
    Nat.lt_of_le_of_lt (Nat.le_add_right _ _) h₃⟩

theorem increment_eq {n : Nat} (h : n + 1 < 2 ^ 64) : increment n = n + 1 := Nat.mod_eq_of_lt h

end Ids

theorem spendUtxo_ok {s : Store} {txId : Nat} {st st' : Staged} {utxo : UnshieldedUtxo} :
    spendUtxo s txId st utxo = .ok st' ↔
      ∃ record, overlay st.createdThisBlock (s .utxos) (utxoKey utxo.intentHash utxo.outputIndex) =
          some record ∧
        st' = (((st.stageUtxo (utxoKey utxo.intentHash utxo.outputIndex)
          { record with spendingTxId := some txId }).remove .utxosUnspentByOwner
          (unspentKey utxo)).addDelta utxo (-wrapI128 utxo.value)).touch utxo.owner txId := by
  cases h : overlay st.createdThisBlock (s .utxos) (utxoKey utxo.intentHash utxo.outputIndex) <;>
    simp [spendUtxo, h, eq_comm]

section Frames

/-! Which partitions and which fields of the loop state a step leaves alone. -/

variable {s : Store} {st st' : Staged} {q : Part}

/-- The part of the loop state that only created and spent UTXOs change. -/
def utxoCaches (st : Staged) : Table UtxoRecord × Table Int × Table (List Nat) :=
  (st.createdThisBlock, st.balanceDeltas, st.touchedAddresses)

theorem stageState_frame (hq : q ≠ .contractStates) (h : Option (ByteArr 32)) (blob : Bytes) :
    pending s (stageState s st h blob) q = pending s st q ∧
      (stageState s st h blob).ids = st.ids ∧
      utxoCaches (stageState s st h blob) = utxoCaches st := by
  unfold stageState
  split
  · split
    · exact ⟨pending_put_other s st hq _ _, rfl, rfl⟩
    · exact ⟨rfl, rfl, rfl⟩
  · exact ⟨rfl, rfl, rfl⟩

theorem stageContract_frame (hq : q ≠ .contracts) (h : Option (ByteArr 32)) (address : Bytes)
    (actionId : Nat) :
    pending s (stageContract s st h address actionId) q = pending s st q ∧
      (stageContract s st h address actionId).ids = st.ids ∧
      utxoCaches (stageContract s st h address actionId) = utxoCaches st := by
  unfold stageContract
  split
  · exact ⟨rfl, rfl, rfl⟩
  · exact ⟨pending_put_other s st hq _ _, rfl, rfl⟩

theorem stageContractAction_frame
    (hq : q ∉ [.contractActions, .contractActionsByAddr, .contractStates, .contracts])
    (txId actionId : Nat) (action : Bytes × ContractActionRecord × Bytes) :
    pending s (stageContractAction s txId actionId st action) q = pending s st q := by
  simp only [List.mem_cons, List.not_mem_nil, or_false, not_or] at hq
  obtain ⟨h₁, h₂, h₃, h₄⟩ := hq
  rw [stageContractAction, (stageContract_frame h₄ _ _ _).1, (stageState_frame h₃ _ _).1]
  simp [h₁, h₂]

theorem stageContractAction_ids (txId actionId : Nat) (action : Bytes × ContractActionRecord × Bytes) :
    (stageContractAction s txId actionId st action).ids = st.ids := by
  rw [stageContractAction, (stageContract_frame (q := .metadata) (by decide) _ _ _).2.1,
    (stageState_frame (q := .metadata) (by decide) _ _).2.1]
  rfl

theorem stageContractAction_caches (txId actionId : Nat)
    (action : Bytes × ContractActionRecord × Bytes) :
    utxoCaches (stageContractAction s txId actionId st action) = utxoCaches st := by
  rw [stageContractAction, (stageContract_frame (q := .metadata) (by decide) _ _ _).2.2,
    (stageState_frame (q := .metadata) (by decide) _ _).2.2]
  rfl

theorem stageContractIndex_frame (hq : q ≠ .eventsByContract) (contractAddress : Option Bytes)
    (eventId : Nat) :
    pending s (stageContractIndex st contractAddress eventId) q = pending s st q ∧
      (stageContractIndex st contractAddress eventId).ids = st.ids ∧
      utxoCaches (stageContractIndex st contractAddress eventId) = utxoCaches st := by
  cases contractAddress with
  | none => exact ⟨rfl, rfl, rfl⟩
  | some address => exact ⟨pending_put_other s st hq _ _, rfl, rfl⟩

theorem stageDustIndex_frame (hq : q ≠ .walletDustEvents) (grouping : LedgerEventGrouping)
    (eventId : Nat) :
    pending s (stageDustIndex st grouping eventId) q = pending s st q ∧
      (stageDustIndex st grouping eventId).ids = st.ids ∧
      utxoCaches (stageDustIndex st grouping eventId) = utxoCaches st := by
  cases grouping with
  | dust => exact ⟨pending_put_other s st hq _ _, rfl, rfl⟩
  | zswap => exact ⟨rfl, rfl, rfl⟩
  | contract => exact ⟨rfl, rfl, rfl⟩

theorem stageDustGeneration_frame (hq : q ∉ [.dustGeneration, .dustGenByOwner]) (txId : Nat)
    (attributes : LedgerEventAttributes) :
    pending s (stageDustGeneration st txId attributes) q = pending s st q ∧
      (stageDustGeneration st txId attributes).ids = st.ids ∧
      utxoCaches (stageDustGeneration st txId attributes) = utxoCaches st := by
  simp only [List.mem_cons, List.not_mem_nil, or_false, not_or] at hq
  unfold stageDustGeneration
  split
  · exact ⟨by simp [hq.1, hq.2], rfl, rfl⟩
  · exact ⟨by simp [hq.1, hq.2], rfl, rfl⟩
  · exact ⟨rfl, rfl, rfl⟩

theorem stageLedgerEvent_frame
    (hq : q ∉ [.ledgerEvents, .eventsByContract, .walletDustEvents, .dustGeneration, .dustGenByOwner])
    (height txId eventId : Nat) (event : LedgerEvent) :
    pending s (stageLedgerEvent height txId eventId st event) q = pending s st q := by
  simp only [List.mem_cons, List.not_mem_nil, or_false, not_or] at hq
  obtain ⟨h₁, h₂, h₃, h₄, h₅⟩ := hq
  rw [stageLedgerEvent, (stageDustGeneration_frame (by simp [h₄, h₅]) _ _).1,
    (stageDustIndex_frame h₃ _ _).1, pending_put_other _ _ h₁, (stageContractIndex_frame h₂ _ _).1]

theorem stageLedgerEvent_ids (height txId eventId : Nat) (event : LedgerEvent) :
    (stageLedgerEvent height txId eventId st event).ids = st.ids := by
  rw [stageLedgerEvent, (stageDustGeneration_frame (s := fresh) (q := .metadata) (by decide) _ _).2.1,
    (stageDustIndex_frame (s := fresh) (q := .metadata) (by decide) _ _).2.1]
  exact (stageContractIndex_frame (s := fresh) (q := .metadata) (by decide) _ _).2.1

theorem stageLedgerEvent_caches (height txId eventId : Nat) (event : LedgerEvent) :
    utxoCaches (stageLedgerEvent height txId eventId st event) = utxoCaches st := by
  rw [stageLedgerEvent, (stageDustGeneration_frame (s := fresh) (q := .metadata) (by decide) _ _).2.2,
    (stageDustIndex_frame (s := fresh) (q := .metadata) (by decide) _ _).2.2]
  exact (stageContractIndex_frame (s := fresh) (q := .metadata) (by decide) _ _).2.2

theorem createUtxo_frame (hq : q ∉ [.utxos, .utxosUnspentByOwner]) (txId : Nat)
    (utxo : UnshieldedUtxo) : pending s (createUtxo txId st utxo) q = pending s st q := by
  simp only [List.mem_cons, List.not_mem_nil, or_false, not_or] at hq
  simp [createUtxo, hq.1, hq.2]

theorem spendUtxo_frame (hq : q ∉ [.utxos, .utxosUnspentByOwner]) {txId : Nat}
    {utxo : UnshieldedUtxo} (h : spendUtxo s txId st utxo = .ok st') :
    pending s st' q = pending s st q := by
  simp only [List.mem_cons, List.not_mem_nil, or_false, not_or] at hq
  obtain ⟨record, -, rfl⟩ := spendUtxo_ok.mp h
  simp [hq.1, hq.2]

theorem spendUtxo_ids {txId : Nat} {utxo : UnshieldedUtxo}
    (h : spendUtxo s txId st utxo = .ok st') : st'.ids = st.ids := by
  obtain ⟨record, -, rfl⟩ := spendUtxo_ok.mp h
  rfl

theorem stageKeyIndexes_frame (hq : q ∉ [.walletTxIndices, .txsByHash, .txsByIdentifier])
    (applied : AppliedTransaction) (txId : Nat) :
    pending s (stageKeyIndexes st applied txId) q = pending s st q := by
  simp only [List.mem_cons, List.not_mem_nil, or_false, not_or] at hq
  rw [stageKeyIndexes, foldl_frame (f := fun st => pending s st q)]
  · simp [hq.1, hq.2.1]
  · intro a x
    simp [hq.2.2]

theorem stageKeyIndexes_ids (applied : AppliedTransaction) (txId : Nat) :
    (stageKeyIndexes st applied txId).ids = st.ids := by
  rw [stageKeyIndexes, foldl_frame (f := Staged.ids)]
  · rfl
  · intro a x; rfl

theorem stageKeyIndexes_caches (applied : AppliedTransaction) (txId : Nat) :
    utxoCaches (stageKeyIndexes st applied txId) = utxoCaches st := by
  rw [stageKeyIndexes, foldl_frame (f := utxoCaches)]
  · rfl
  · intro a x; rfl

theorem writeTransaction_ok {height : Nat} {applied : AppliedTransaction} {index : Nat} :
    writeTransaction s height st (applied, index) = .ok st' ↔
      ∃ st₁ st₂ ids st₃,
        applied.spentUtxos.foldlM (spendUtxo s st.ids.nextTxId)
          (applied.createdUtxos.foldl (createUtxo st.ids.nextTxId)
            (stageKeyIndexes { st with ids := { st.ids with nextTxId := increment st.ids.nextTxId } }
              applied st.ids.nextTxId)) = .ok st₁ ∧
        applied.contractActions.foldl (writeContractAction s st.ids.nextTxId) (st₁, []) = (st₂, ids) ∧
        applied.ledgerEvents.foldl
          (writeLedgerEvent height st.ids.nextTxId (actionsOf applied ids)) st₂ = st₃ ∧
        st' = st₃.put .txs (be 8 st.ids.nextTxId)
          (txRecord height index applied ids st.ids.nextEventId st₃.ids.nextEventId) := by
  simp only [writeTransaction, bind_ok, Except.ok.injEq]
  constructor
  · rintro ⟨st₁, h₁, rfl⟩
    exact ⟨st₁, _, _, _, h₁, rfl, rfl, rfl⟩
  · rintro ⟨st₁, st₂, ids, st₃, h₁, h₂, rfl, rfl⟩
    refine ⟨st₁, h₁, ?_⟩
    rw [h₂]

theorem utxos_frame (hq : q ∉ [.utxos, .utxosUnspentByOwner]) {txId : Nat}
    {created spent : List UnshieldedUtxo}
    (h : spent.foldlM (spendUtxo s txId) (created.foldl (createUtxo txId) st) = .ok st') :
    pending s st' q = pending s st q ∧ st'.ids = st.ids := by
  constructor
  · rw [foldlM_frame (f := fun a => pending s a q) h (fun x _ a b hb => spendUtxo_frame hq hb)]
    exact foldl_frame (f := fun a => pending s a q) (fun a x => createUtxo_frame hq txId x) _ _
  · rw [foldlM_frame (f := Staged.ids) h (fun x _ a b hb => spendUtxo_ids hb)]
    have hids : ∀ a x, (createUtxo txId a x).ids = a.ids := fun _ _ => rfl
    exact foldl_frame hids _ _

theorem writeContractActions_frame
    (hq : q ∉ [.contractActions, .contractActionsByAddr, .contractStates, .contracts])
    {txId : Nat} {actions : List (Bytes × ContractActionRecord × Bytes)} {ids : List Nat}
    (h : actions.foldl (writeContractAction s txId) (st, []) = (st', ids)) :
    pending s st' q = pending s st q ∧ utxoCaches st' = utxoCaches st := by
  constructor
  · refine foldl_invariant (I := fun a => pending s a.1 q = pending s st q) h rfl ?_
    intro action _ a ha
    rw [← ha]
    exact stageContractAction_frame hq _ _ _
  · refine foldl_invariant (I := fun a => utxoCaches a.1 = utxoCaches st) h rfl ?_
    intro action _ a ha
    rw [← ha]
    exact stageContractAction_caches (s := s) _ _ _

theorem writeLedgerEvents_frame
    (hq : q ∉ [.ledgerEvents, .eventsByContract, .walletDustEvents, .dustGeneration, .dustGenByOwner])
    {height txId : Nat} {actions : List (Nat × Bytes × ContractAttributes)}
    {events : List LedgerEvent}
    (h : events.foldl (writeLedgerEvent height txId actions) st = st') :
    pending s st' q = pending s st q ∧ utxoCaches st' = utxoCaches st := by
  constructor
  · refine foldl_invariant (I := fun a => pending s a q = pending s st q) h rfl ?_
    intro event _ a ha
    rw [← ha]
    exact stageLedgerEvent_frame hq _ _ _ _
  · refine foldl_invariant (I := fun a => utxoCaches a = utxoCaches st) h rfl ?_
    intro event _ a ha
    rw [← ha]
    exact stageLedgerEvent_caches _ _ _ _

end Frames

end Nightfrost.Staging
