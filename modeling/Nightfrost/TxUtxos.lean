import Nightfrost.CurrentState
import Nightfrost.TxLookups

namespace Nightfrost.TxUtxos

open ByteOrder Tables Partitions Domain Schema WriteBlock MovingStore Api CoinHistory EntityLog BlockStep BlockRun Timeline
  Endpoints Lookups TxLookups UtxoSet CurrentState

structure TxUtxosResponse where
  hash : String
  inputs : List UtxoResponse
  outputs : List UtxoResponse
  deriving DecidableEq

/-- A spent UTXO, which is no longer in the ledger state of its transaction, with the
ctime of its record. -/
def inputResponse (utxo : UnshieldedUtxo) : Handler UtxoResponse :=
  match utxo.ctime with
  | some _ => pure (.from utxo)
  | none => do
      match ← query (fun s => (s .utxos)[utxoKey utxo.intentHash utxo.outputIndex]?) with
      | none => pure (.from utxo)
      | some stored => pure { UtxoResponse.from utxo with ctime := stored.utxo.ctime }

def txUtxos (libs : AddressLibs) (hash : String) : Handler (PointResponse TxUtxosResponse) := do
  let (_, record) ← txByHash libs hash
  let inputs ← collect inputResponse record.spentUtxos
  response ⟨hexEncode record.hash.val, inputs, record.createdUtxos.map .from⟩

/-- A row of a spent UTXO is that of the output that created it, with what only the
spending transaction has. -/
def Shows (txs : List TxRecord) (utxo : UnshieldedUtxo) (row : UtxoResponse) : Prop :=
  ∃ (txId : Nat) (creating : TxRecord) (created : UnshieldedUtxo), txs[txId]? = some creating ∧
    created ∈ creating.createdUtxos ∧ outpointKey created = outpointKey utxo ∧
    row = { UtxoResponse.from created with
      ctime := utxo.ctime <|> created.ctime
      registeredForDustGeneration := utxo.registeredForDustGeneration }

section Collect

variable {S ε α β : Type} {f : α → Reads S ε β} {R : α → β → Prop} {σ : Nat → S}

theorem collect_forall₂ {as : List α} {t : Nat}
    (h : ∀ a ∈ as, ∀ t', t ≤ t' → ∃ b t'', (f a).run σ t' = .ok (b, t'') ∧ R a b) {t' : Nat} (hle : t ≤ t') :
    ∃ bs t'', (collect f as).run σ t' = .ok (bs, t'') ∧ List.Forall₂ R as bs := by
  induction as generalizing t' with
  | nil => exact ⟨[], t', rfl, .nil⟩
  | cons a as ih =>
      obtain ⟨b, t₁, hb, hrow⟩ := h a List.mem_cons_self t' hle
      obtain ⟨bs, t₂, hbs, hrows⟩ := ih (fun a ha => h a (List.mem_cons_of_mem _ ha)) (hle.trans (run_le hb))
      refine ⟨b :: bs, t₂, ?_, .cons hrow hrows⟩
      rw [collect, run_bind, hb]
      dsimp only
      rw [run_bind, hbs]
      rfl

end Collect

section Inputs

variable {σ : Nat → Store} {blocks : Nat → List DerivedBlock} {t : Nat}

theorem mem_moves {blocks : List DerivedBlock} {move : UtxoMove} :
    move ∈ movesOf blocks ↔ ∃ (txId : Nat) (record : TxRecord), (logOf blocks).txs[txId]? = some record ∧
      move ∈ record.createdUtxos.map (Move.create txId) ++ record.spentUtxos.map (Move.spend txId) := by
  have hget : ∀ i : Nat, (logOf blocks).txs[i]?.map
      (fun record : TxRecord => (record.createdUtxos, record.spentUtxos)) =
      (blocks.flatMap DerivedBlock.transactions)[i]?.map
        (fun applied : AppliedTransaction => (applied.createdUtxos, applied.spentUtxos)) := by
    intro i
    rw [← List.getElem?_map, ← List.getElem?_map, logOf_utxos]
  simp only [movesOf, List.mem_flatMap, Prod.exists, List.mk_mem_zipIdx_iff_getElem?]
  constructor
  · rintro ⟨applied, i, happlied, hmove⟩
    have hrecord := hget i
    rw [happlied, Option.map_some, Option.map_eq_some_iff] at hrecord
    obtain ⟨record, hrecord, he⟩ := hrecord
    obtain ⟨hcreated, hspent⟩ := Prod.mk.inj he
    exact ⟨i, record, hrecord, by rwa [hcreated, hspent]⟩
  · rintro ⟨i, record, hrecord, hmove⟩
    have happlied := (hget i).symm
    rw [hrecord, Option.map_some, Option.map_eq_some_iff] at happlied
    obtain ⟨applied, happlied, he⟩ := happlied
    obtain ⟨hcreated, hspent⟩ := Prod.mk.inj he
    exact ⟨applied, i, happlied, by rwa [txMoves, hcreated, hspent]⟩

theorem tx_of_create {blocks : List DerivedBlock} {txId : Nat} {utxo : UnshieldedUtxo}
    (h : .create txId utxo ∈ movesOf blocks) :
    ∃ record, (logOf blocks).txs[txId]? = some record ∧ utxo ∈ record.createdUtxos := by
  obtain ⟨i, record, hrecord, hmove⟩ := mem_moves.mp h
  rcases List.mem_append.mp hmove with hcreate | hspend
  · obtain ⟨created, hmem, he⟩ := List.mem_map.mp hcreate
    obtain ⟨rfl, rfl⟩ := Move.create.inj he
    exact ⟨record, hrecord, hmem⟩
  · obtain ⟨spent, -, he⟩ := List.mem_map.mp hspend
    cases he

theorem moves_later (h : Growing σ blocks) {t' : Nat} (hle : t ≤ t') {move : UtxoMove}
    (hmove : move ∈ movesOf (blocks t)) : move ∈ movesOf (blocks t') := by
  obtain ⟨i, record, hrecord, hmem⟩ := mem_moves.mp hmove
  exact mem_moves.mpr ⟨i, record, (txs_later h hle (List.getElem?_eq_some_iff.mp hrecord).1).trans hrecord, hmem⟩

theorem stored_created (h : Growing σ blocks) {t' : Nat} (hle : t ≤ t')
    (hc : LedgerConsistent (movesOf (blocks t'))) {txId : Nat} {created : UnshieldedUtxo}
    (hcreate : .create txId created ∈ movesOf (blocks t)) :
    ∃ stored, (σ t' .utxos)[outpointKey created]? = some stored ∧ stored.utxo = created := by
  obtain ⟨ids, hrun⟩ := h.run t'
  have hlater := moves_later h hle hcreate
  have hindex := run_utxoIndex hrun
  obtain ⟨stored, hstored⟩ := hindex.stored created (mem_createdOf.mpr ⟨txId, hlater⟩)
  obtain ⟨hmem, hkey⟩ := hindex.record _ _ hstored
  obtain ⟨i, hi⟩ := mem_createdOf.mp hmem
  exact ⟨stored, hstored, hc.created_once hi hlater hkey⟩

theorem input_shown (h : Growing σ blocks) (hc : ∀ t, LedgerConsistent (movesOf (blocks t))) {txId : Nat}
    {record : TxRecord} (hrecord : (logOf (blocks t)).txs[txId]? = some record) {utxo : UnshieldedUtxo}
    (hspent : utxo ∈ record.spentUtxos) {t' : Nat} (hle : t ≤ t') :
    ∃ row t'', (inputResponse utxo).run σ t' = .ok (row, t'') ∧
      Shows (logOf (blocks t)).txs utxo row := by
  have hspend : .spend txId utxo ∈ movesOf (blocks t) :=
    mem_moves.mpr ⟨txId, record, hrecord, List.mem_append_right _ (List.mem_map_of_mem hspent)⟩
  obtain ⟨past, rest, hcut⟩ := List.append_of_mem hspend
  obtain ⟨-, i, created, hcreate, hkey, howner, htoken, hvalue⟩ := hc t past _ rest hcut
  have hcreated : .create i created ∈ movesOf (blocks t) := hcut ▸ List.mem_append_left _ hcreate
  obtain ⟨creating, hcreating, hmem⟩ := tx_of_create hcreated
  obtain ⟨hhash, hindex⟩ := utxoKey_injective created.outputIndex_lt utxo.outputIndex_lt hkey
  have hfrom : UtxoResponse.from utxo = { UtxoResponse.from created with
      ctime := utxo.ctime
      registeredForDustGeneration := utxo.registeredForDustGeneration } := by
    simp only [UtxoResponse.from, howner, htoken, hvalue, hhash, hindex]
  rw [inputResponse]
  cases hctime : utxo.ctime with
  | some ctime =>
      refine ⟨_, t', rfl, i, creating, created, hcreating, hmem, hkey, ?_⟩
      rw [hfrom, hctime]
      rfl
  | none =>
      obtain ⟨stored, hstored, hsame⟩ := stored_created h hle (hc t') hcreated
      refine ⟨{ UtxoResponse.from utxo with ctime := created.ctime }, t' + 1, ?_, i, creating, created,
        hcreating, hmem, hkey, ?_⟩
      · dsimp only
        rw [run_bind, run_query]
        dsimp only
        change (σ t' .utxos)[utxoKey created.intentHash created.outputIndex]? = some stored at hstored
        rw [← hhash, ← hindex, hstored, ← hsame]
        rfl
      · rw [hfrom, hctime]
        rfl

end Inputs

section Results

variable {σ : Nat → Store} {blocks : Nat → List DerivedBlock}

/-- The UTXOs of a transaction: an output as it was recorded, and an input as the output
that created it, blocks being written meanwhile or not. -/
theorem txUtxos_shown (h : Growing σ blocks) (hc : ∀ t, LedgerConsistent (movesOf (blocks t)))
    {libs : AddressLibs} {input : String} {hash : ByteArr 32} (hinput : libs.hexDecode input = some hash.val)
    (t : Nat) :
    Finds (logOf (blocks t)).txs (fun record => record.hash = hash)
      (fun _ record => ∃ answer t', (txUtxos libs input).run σ t = .ok (answer, t') ∧
        answer.results.hash = hexEncode hash.val ∧
        List.Forall₂ (Shows (logOf (blocks t)).txs) record.spentUtxos answer.results.inputs ∧
        answer.results.outputs = record.createdUtxos.map .from)
      ((txUtxos libs input).run σ t = .error (.notFound "transaction not found")) := by
  rcases txByHash_run h t hinput with ⟨txId, record, hrecent, hfound⟩ | ⟨hmissing, hnot⟩
  · refine .inl ⟨txId, record, hrecent, ?_⟩
    obtain ⟨inputs, t₁, hinputs, hshown⟩ := collect_forall₂ (R := Shows (logOf (blocks t)).txs)
      (fun utxo hspent t' hle => input_shown h hc hrecent.stored hspent hle) (Nat.le_add_right t 2)
    obtain ⟨answer, t', hanswer, hresults⟩ := h.response
      (⟨hexEncode record.hash.val, inputs, record.createdUtxos.map .from⟩ : TxUtxosResponse) t₁
    refine ⟨answer, t', ?_, ?_, ?_, ?_⟩
    · rw [txUtxos, run_bind, hfound]
      dsimp only
      rw [run_bind, hinputs]
      exact hanswer
    · rw [hresults, ← hrecent.holds]
    · rw [hresults]
      exact hshown
    · rw [hresults]
  · refine .inr ⟨hmissing, ?_⟩
    rw [txUtxos, run_bind, hnot]

end Results

section Spent

theorem spent_consistent : LedgerConsistent (movesOf ([creatingBlock] ++ [spendingBlock])) := by
  have hmoves : movesOf ([creatingBlock] ++ [spendingBlock]) =
      [] ++ [.create 0 sampleUtxo] ++ [.create 0 secondUtxo] ++ [.spend 1 sampleUtxo] := rfl
  rw [hmoves]
  refine ((Consistent.nil.push ?_).push ?_).push ?_
  · intro txId utxo hmem
    cases hmem
  · intro txId utxo hmem
    obtain ⟨rfl, rfl⟩ := Move.create.inj (List.mem_singleton.mp hmem)
    decide
  · refine ⟨?_, 0, sampleUtxo, by simp, rfl, rfl, rfl, rfl⟩
    intro txId utxo hmem
    simp at hmem

theorem growing_stillSpent : Growing (fun _ => spentStore.1) (fun _ => [creatingBlock] ++ [spendingBlock]) :=
  growing_still run_spentStore (growing_spent.consecutive 4)

theorem txUtxos_shown_spent : ∃ answer t',
    (txUtxos hexLibs (hexEncode (List.replicate 32 0))).run (fun _ => spentStore.1) 0 = .ok (answer, t') ∧
      answer.results.inputs = [.from sampleUtxo] ∧ answer.results.outputs = [] := by
  have hlog : ∃ record, (logOf ([creatingBlock] ++ [spendingBlock])).txs[1]? = some record ∧
      record.hash = .filled 32 0 ∧ record.spentUtxos = [sampleUtxo] ∧ record.createdUtxos = [] :=
    ⟨_, rfl, rfl, rfl, rfl⟩
  obtain ⟨last, hlast, hhash, hspent, hcreated⟩ := hlog
  have hinput : hexLibs.hexDecode (hexEncode (List.replicate 32 0)) = some (ByteArr.filled 32 0).val := by
    rfl
  rcases txUtxos_shown growing_stillSpent (fun _ => spent_consistent) hinput 0 with
    ⟨txId, record, hrecent, answer, t', hanswer, -, hinputs, houtputs⟩ | ⟨hnone, -⟩
  · have hlt := (List.getElem?_eq_some_iff.mp hrecent.stored).1
    have hle := hrecent.latest 1 last hlast hhash
    have hlen : (logOf ([creatingBlock] ++ [spendingBlock])).txs.length = 2 := rfl
    obtain rfl : txId = 1 := by omega
    obtain rfl : last = record := Option.some.inj (hlast.symm.trans hrecent.stored)
    refine ⟨answer, t', hanswer, ?_, by rw [houtputs, hcreated]; rfl⟩
    rw [hspent] at hinputs
    obtain ⟨row, rows, hrow, hrows, he⟩ := List.forall₂_cons_left_iff.mp hinputs
    rw [he, List.forall₂_nil_left_iff.mp hrows]
    obtain ⟨i, creating, created, hcreating, hmem, hkey, rfl⟩ := hrow
    have hcreate : .create i created ∈ movesOf ([creatingBlock] ++ [spendingBlock]) :=
      mem_moves.mpr ⟨i, creating, hcreating, List.mem_append_left _ (List.mem_map_of_mem hmem)⟩
    have hfirst : .create 0 sampleUtxo ∈ movesOf ([creatingBlock] ++ [spendingBlock]) :=
      List.mem_cons_self
    rw [spent_consistent.created_once hcreate hfirst hkey]
    rfl
  · exact absurd hhash (hnone last (List.mem_of_getElem? hlast))

end Spent

end Nightfrost.TxUtxos
