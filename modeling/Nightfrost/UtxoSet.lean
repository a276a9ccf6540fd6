import Nightfrost.BlockRun
import Nightfrost.CoinHistory

namespace Nightfrost.UtxoSet

open ByteOrder Tables Partitions Domain Schema WriteBlock Staging ExceptFold EntityLog BlockStep
  BlockRun CoinHistory

abbrev UtxoMove := Move UnshieldedUtxo

def outpointKey (utxo : UnshieldedUtxo) : Bytes := utxoKey utxo.intentHash utxo.outputIndex

def SameUtxo (a b : UnshieldedUtxo) : Prop :=
  a.owner = b.owner ∧ a.tokenType = b.tokenType ∧ a.value = b.value

def txMoves (txId : Nat) (applied : AppliedTransaction) : List UtxoMove :=
  applied.createdUtxos.map (Move.create txId) ++ applied.spentUtxos.map (Move.spend txId)

def movesOf (blocks : List DerivedBlock) : List UtxoMove :=
  ((blocks.flatMap DerivedBlock.transactions).zipIdx).flatMap (fun entry => txMoves entry.2 entry.1)

abbrev LedgerConsistent (moves : List UtxoMove) : Prop := Consistent outpointKey SameUtxo moves

/-- The value that a coin adds to the total of an owner and a token. -/
def weight (owner tokenType : ByteArr 32) (utxo : UnshieldedUtxo) : Nat :=
  if utxo.owner = owner ∧ utxo.tokenType = tokenType then utxo.value else 0

def total (owner tokenType : ByteArr 32) (moves : List UtxoMove) : Int :=
  net (weight owner tokenType) moves

def Touches (owner tokenType : ByteArr 32) (move : UtxoMove) : Prop :=
  move.coin.owner = owner ∧ move.coin.tokenType = tokenType

instance (owner tokenType : ByteArr 32) (move : UtxoMove) : Decidable (Touches owner tokenType move) :=
  inferInstanceAs (Decidable (_ ∧ _))

def unspentWeight (owner tokenType : ByteArr 32) (record : UtxoRecord) : Nat :=
  if record.spendingTxId = none then weight owner tokenType record.utxo else 0

def unspentTotal (view : Store) (owner tokenType : ByteArr 32) : Nat :=
  sumOf (view .utxos) (unspentWeight owner tokenType)

section Arithmetic

theorem wrapI128_add (a b : Int) : wrapI128 (wrapI128 a + wrapI128 b) = wrapI128 (a + b) := by
  simp [wrapI128]

theorem wrapI128_sub (a b : Int) : wrapI128 (wrapI128 a + -wrapI128 b) = wrapI128 (a + -b) := by
  rw [← Int.sub_eq_add_neg, ← Int.sub_eq_add_neg]
  simp [wrapI128]

theorem wrapI128_of_lt {x : Int} (h : 0 ≤ x) (hx : x < 2 ^ 127) : wrapI128 x = x := by
  rw [wrapI128]
  rw [Int.bmod_def]
  omega

theorem weight_eq_zero {owner tokenType : ByteArr 32} {move : UtxoMove}
    (h : ¬ Touches owner tokenType move) : move.delta (weight owner tokenType) = 0 := by
  cases move with
  | create txId c =>
      have hw : weight owner tokenType c = 0 := if_neg h
      simp [Move.delta, hw]
  | spend txId c =>
      have hw : weight owner tokenType c = 0 := if_neg h
      simp [Move.delta, hw]

theorem total_untouched {owner tokenType : ByteArr 32} {moves : List UtxoMove}
    (h : ¬ ∃ move ∈ moves, Touches owner tokenType move) : total owner tokenType moves = 0 := by
  rw [total, net]
  apply List.sum_eq_zero
  intro x hx
  obtain ⟨move, hmem, rfl⟩ := List.mem_map.mp hx
  exact weight_eq_zero (fun ht => h ⟨move, hmem, ht⟩)

end Arithmetic

theorem append_injective {n : Nat} {a b : ByteArr n} {x y : Bytes}
    (h : a.val ++ x = b.val ++ y) : a = b ∧ x = y := by
  obtain ⟨h₁, h₂⟩ := List.append_inj h (a.property.trans b.property.symm)
  exact ⟨Subtype.ext h₁, h₂⟩

theorem balanceKey_injective {owner owner' tokenType tokenType' : ByteArr 32}
    (h : balanceKey owner tokenType = balanceKey owner' tokenType') :
    owner = owner' ∧ tokenType = tokenType' := by
  obtain ⟨h₁, h₂⟩ := append_injective h
  exact ⟨h₁, Subtype.ext h₂⟩

theorem unspentKey_outpoint {a b : UnshieldedUtxo} (h : unspentKey a = unspentKey b) :
    outpointKey a = outpointKey b := by
  simp only [unspentKey, List.append_assoc] at h
  exact (append_injective (append_injective h).2).2

def entryOf (record : UtxoRecord) : Entry UnshieldedUtxo :=
  ⟨record.utxo, record.creatingTxId, record.spendingTxId⟩

structure UtxoTables (view : Store) (moves : List UtxoMove) : Prop where
  records : Records outpointKey (fun k => (view .utxos)[k]?.map entryOf) moves
  unspent : ∀ k key, (view .utxosUnspentByOwner)[k]? = some key ↔
    ∃ record, (view .utxos)[key]? = some record ∧ record.spendingTxId = none ∧
      k = unspentKey record.utxo
  sums : ∀ owner tokenType, (unspentTotal view owner tokenType : Int) = total owner tokenType moves

/-- The balance deltas of a block are the totals of its moves, as an `i128`. -/
def Deltas (deltas : Table Int) (moves : List UtxoMove) : Prop :=
  ∀ owner tokenType, deltas[balanceKey owner tokenType]? =
    if ∃ move ∈ moves, Touches owner tokenType move then
      some (wrapI128 (total owner tokenType moves)) else none

/-- The loop state of `writeBlock` after the moves `new` of a block, over a
store that records the moves `past`. -/
structure UtxoView (s : Store) (past new : List UtxoMove) (st : Staged) : Prop where
  mirrors : Mirrors st.createdThisBlock (s .utxos) (pending s st .utxos)
  tables : UtxoTables (pending s st) (past ++ new)
  deltas : Deltas st.balanceDeltas new

theorem UtxoTables.key {view : Store} {moves : List UtxoMove} (h : UtxoTables view moves) {k : Bytes}
    {record : UtxoRecord} (hr : (view .utxos)[k]? = some record) : outpointKey record.utxo = k :=
  ((h.records k (entryOf record)).mp (by simp [hr])).2.1

theorem UtxoTables.start : UtxoTables fresh [] := by
  refine ⟨Records.empty, ?_, ?_⟩
  · intro k key
    simp [fresh_other]
  · intro owner tokenType
    rfl

theorem UtxoTables.congr {view view' : Store} {moves : List UtxoMove} (h : UtxoTables view moves)
    (h₁ : view' .utxos = view .utxos) (h₂ : view' .utxosUnspentByOwner = view .utxosUnspentByOwner) :
    UtxoTables view' moves := by
  refine ⟨by rw [h₁]; exact h.records, by rw [h₁, h₂]; exact h.unspent, ?_⟩
  intro owner tokenType
  rw [unspentTotal, h₁]
  exact h.sums owner tokenType

section Steps

variable {s : Store} {st st' : Staged} {past new : List UtxoMove} {txId : Nat} {utxo : UnshieldedUtxo}

theorem Deltas.push (st : Staged) (move : UtxoMove) {amount : Int} (h : Deltas st.balanceDeltas new)
    (hwrap : ∀ a, wrapI128 (wrapI128 a + amount) =
      wrapI128 (a + move.delta (weight move.coin.owner move.coin.tokenType))) :
    Deltas (st.addDelta move.coin amount).balanceDeltas (new ++ [move]) := by
  intro owner tokenType
  simp only [Staged.addDelta, get_insert]
  have hmem : (∃ m ∈ new ++ [move], Touches owner tokenType m) ↔
      (∃ m ∈ new, Touches owner tokenType m) ∨ Touches owner tokenType move := by
    simp only [List.mem_append, List.mem_singleton, or_and_right, exists_or, exists_eq_left]
  by_cases ht : Touches owner tokenType move
  · obtain ⟨rfl, rfl⟩ := ht
    rw [if_pos rfl, if_pos (hmem.mpr (.inr ⟨rfl, rfl⟩)), total, net_append, net_singleton, ← hwrap]
    have hold : st.balanceDeltas[balanceKey move.coin.owner move.coin.tokenType]?.getD 0 =
        wrapI128 (net (weight move.coin.owner move.coin.tokenType) new) := by
      rw [h]
      split
      · rfl
      · rename_i hno
        exact (congrArg wrapI128 (total_untouched hno)).symm
    rw [hold]
  · have hne : balanceKey move.coin.owner move.coin.tokenType ≠ balanceKey owner tokenType :=
      fun he => ht (balanceKey_injective he)
    rw [if_neg hne, h]
    simp only [hmem, ht, or_false, total, net_append, net_singleton, weight_eq_zero ht, add_zero]

theorem Deltas.create (h : Deltas st.balanceDeltas new) (txId id : Nat) (utxo : UnshieldedUtxo) :
    Deltas (createUtxo txId st utxo).balanceDeltas (new ++ [.create id utxo]) := by
  apply Deltas.push st (.create id utxo) h
  intro a
  rw [wrapI128_add]
  simp [Move.delta, weight, Move.coin]

theorem Deltas.spend (h : Deltas st.balanceDeltas new) (id : Nat)
    (hrun : spendUtxo s txId st utxo = .ok st') :
    Deltas st'.balanceDeltas (new ++ [.spend id utxo]) := by
  obtain ⟨record, -, rfl⟩ := spendUtxo_ok.mp hrun
  apply Deltas.push st (.spend id utxo) h
  intro a
  rw [wrapI128_sub]
  simp [Move.delta, weight, Move.coin]

theorem UtxoTables.fresh_key {view : Store} {moves : List UtxoMove} (h : UtxoTables view moves)
    (hc : LedgerConsistent (moves ++ [.create txId utxo])) :
    (view .utxos)[outpointKey utxo]? = none := by
  cases hr : (view .utxos)[outpointKey utxo]? with
  | none => rfl
  | some record =>
      obtain ⟨hmem, hk, -⟩ := (h.records (outpointKey utxo) (entryOf record)).mp
        (by simp [hr])
      exact absurd hk (hc.last _ _ hmem)

theorem UtxoTables.create {view view' : Store} {moves : List UtxoMove} (h : UtxoTables view moves)
    (hc : LedgerConsistent (moves ++ [.create txId utxo]))
    (h₁ : view' .utxos = (view .utxos).insert (outpointKey utxo) ⟨utxo, txId, none⟩)
    (h₂ : view' .utxosUnspentByOwner =
      (view .utxosUnspentByOwner).insert (unspentKey utxo) (outpointKey utxo)) :
    UtxoTables view' (moves ++ [.create txId utxo]) := by
  have hnone := h.fresh_key hc
  refine ⟨h.records.create hc ?_, ?_, ?_⟩
  · intro k
    rw [h₁, get_insert]
    split <;> rfl
  · intro k key
    rw [h₁, h₂, get_insert, get_insert]
    by_cases hk : unspentKey utxo = k
    · subst hk
      rw [if_pos rfl]
      constructor
      · intro he
        obtain rfl := Option.some.inj he
        exact ⟨_, if_pos rfl, rfl, rfl⟩
      · rintro ⟨record, hr, hs, hu⟩
        by_cases hkey : outpointKey utxo = key
        · rw [hkey]
        · rw [if_neg hkey] at hr
          exact absurd ((unspentKey_outpoint hu).trans (h.key hr)) hkey
    · rw [if_neg hk, h.unspent]
      constructor
      · rintro ⟨record, hr, hs, hu⟩
        have hkey : outpointKey utxo ≠ key := fun he => by rw [← he, hnone] at hr; cases hr
        exact ⟨record, by rwa [if_neg hkey], hs, hu⟩
      · rintro ⟨record, hr, hs, hu⟩
        by_cases hkey : outpointKey utxo = key
        · rw [if_pos hkey] at hr
          obtain rfl := Option.some.inj hr
          exact absurd hu.symm hk
        · exact ⟨record, by rwa [if_neg hkey] at hr, hs, hu⟩
  · intro owner tokenType
    have hw : unspentWeight owner tokenType ⟨utxo, txId, none⟩ = weight owner tokenType utxo :=
      if_pos rfl
    rw [unspentTotal, h₁, sumOf_insert_new hnone, hw, total, net_append, net_singleton,
      Nat.cast_add, add_comm]
    exact congrArg (· + _) (h.sums owner tokenType)

theorem UtxoTables.find {view : Store} {moves : List UtxoMove} (h : UtxoTables view moves)
    (ha : Admissible outpointKey SameUtxo moves (.spend txId utxo)) :
    ∃ record, (view .utxos)[outpointKey utxo]? = some record ∧ record.spendingTxId = none ∧
      unspentKey record.utxo = unspentKey utxo ∧ SameUtxo record.utxo utxo := by
  obtain ⟨e, he, hspent, hkey, hsame⟩ := h.records.find ha
  obtain ⟨record, hr, rfl⟩ := Option.map_eq_some_iff.mp he
  refine ⟨record, hr, hspent, ?_, hsame⟩
  have hkey' : utxoKey record.utxo.intentHash record.utxo.outputIndex =
      utxoKey utxo.intentHash utxo.outputIndex := hkey
  have ho : record.utxo.owner = utxo.owner := hsame.1
  have ht : record.utxo.tokenType = utxo.tokenType := hsame.2.1
  rw [unspentKey, unspentKey, ho, ht, hkey']

theorem UtxoTables.spend {view view' : Store} {moves : List UtxoMove} {record : UtxoRecord}
    (h : UtxoTables view moves) (ha : Admissible outpointKey SameUtxo moves (.spend txId utxo))
    (hr : (view .utxos)[outpointKey utxo]? = some record)
    (h₁ : view' .utxos =
      (view .utxos).insert (outpointKey utxo) { record with spendingTxId := some txId })
    (h₂ : view' .utxosUnspentByOwner = (view .utxosUnspentByOwner).erase (unspentKey utxo)) :
    UtxoTables view' (moves ++ [.spend txId utxo]) := by
  obtain ⟨record', hr', hnone, hkey, hsame⟩ := h.find ha
  obtain rfl := Option.some.inj (hr.symm.trans hr')
  refine ⟨h.records.spend ha (e := entryOf record) (by simp [hr]) ?_, ?_, ?_⟩
  · intro k
    rw [h₁, get_insert]
    split <;> rfl
  · intro k key
    rw [h₁, h₂, get_insert, get_erase]
    by_cases hk : unspentKey utxo = k
    · subst hk
      rw [if_pos rfl]
      refine ⟨fun he => (by cases he), ?_⟩
      rintro ⟨r, hr₁, hs, hu⟩
      by_cases hout : outpointKey utxo = key
      · rw [if_pos hout] at hr₁
        obtain rfl := Option.some.inj hr₁
        cases hs
      · rw [if_neg hout] at hr₁
        exact absurd ((unspentKey_outpoint hu).trans (h.key hr₁)) hout
    · rw [if_neg hk, h.unspent]
      by_cases hout : outpointKey utxo = key
      · subst hout
        rw [if_pos rfl]
        constructor
        · rintro ⟨r, hr₁, -, hu⟩
          obtain rfl := Option.some.inj (hr.symm.trans hr₁)
          exact absurd (hkey.symm.trans hu.symm) hk
        · rintro ⟨r, hr₁, hs, -⟩
          obtain rfl := Option.some.inj hr₁
          cases hs
      · rw [if_neg hout]
  · intro owner tokenType
    have hsum := sumOf_replace hr { record with spendingTxId := some txId }
      (unspentWeight owner tokenType)
    have hzero : unspentWeight owner tokenType { record with spendingTxId := some txId } = 0 :=
      if_neg (by simp)
    have hweight : unspentWeight owner tokenType record = weight owner tokenType utxo := by
      rw [unspentWeight, if_pos hnone, weight, hsame.1, hsame.2.1, hsame.2.2, ← weight]
    have hold := h.sums owner tokenType
    rw [unspentTotal] at hold
    rw [unspentTotal, h₁, total, net_append, net_singleton, Move.delta, ← total, ← hold]
    omega

theorem UtxoView.create (h : UtxoView s past new st)
    (hc : LedgerConsistent (past ++ (new ++ [.create txId utxo]))) :
    UtxoView s past (new ++ [.create txId utxo]) (createUtxo txId st utxo) := by
  rw [← List.append_assoc] at hc
  refine ⟨?_, ?_, ?_⟩
  · have hp : pending s (createUtxo txId st utxo) .utxos =
        (pending s st .utxos).insert (outpointKey utxo) ⟨utxo, txId, none⟩ := by
      simp [createUtxo, outpointKey]
    rw [hp]
    exact h.mirrors.insert _ _
  · rw [← List.append_assoc]
    apply h.tables.create hc
    · simp [createUtxo, outpointKey]
    · simp [createUtxo, outpointKey]
  · exact h.deltas.create txId txId utxo

theorem UtxoView.spend (h : UtxoView s past new st)
    (hc : LedgerConsistent (past ++ (new ++ [.spend txId utxo])))
    (hrun : spendUtxo s txId st utxo = .ok st') :
    UtxoView s past (new ++ [.spend txId utxo]) st' := by
  rw [← List.append_assoc] at hc
  have hdeltas := h.deltas.spend txId hrun
  obtain ⟨record, hr, rfl⟩ := spendUtxo_ok.mp hrun
  rw [← h.mirrors] at hr
  refine ⟨?_, ?_, hdeltas⟩
  · simp only [pending_touch, pending_addDelta, ne_eq, reduceCtorEq, not_false_eq_true,
      pending_remove_other, pending_stageUtxo, pending_put_same]
    exact h.mirrors.insert _ _
  · rw [← List.append_assoc]
    apply h.tables.spend hc.last hr
    · simp [outpointKey]
    · simp

theorem UtxoView.createAll {created : List UnshieldedUtxo} (h : UtxoView s past new st)
    (hc : LedgerConsistent (past ++ (new ++ created.map (Move.create txId)))) :
    UtxoView s past (new ++ created.map (Move.create txId)) (created.foldl (createUtxo txId) st) := by
  induction created generalizing new st with
  | nil => simpa using h
  | cons utxo created ih =>
      rw [List.map_cons, List.append_cons] at hc ⊢
      refine ih (h.create ?_) hc
      rw [← List.append_assoc] at hc
      exact hc.of_append

theorem UtxoView.spendAll {spent : List UnshieldedUtxo} (h : UtxoView s past new st)
    (hc : LedgerConsistent (past ++ (new ++ spent.map (Move.spend txId))))
    (hrun : spent.foldlM (spendUtxo s txId) st = .ok st') :
    UtxoView s past (new ++ spent.map (Move.spend txId)) st' := by
  induction spent generalizing new st with
  | nil =>
      obtain rfl := foldlM_nil_ok.mp hrun
      simpa using h
  | cons utxo spent ih =>
      obtain ⟨st₁, hone, hrest⟩ := foldlM_cons_ok.mp hrun
      rw [List.map_cons, List.append_cons] at hc ⊢
      refine ih (h.spend ?_ hone) hc hrest
      rw [← List.append_assoc] at hc
      exact hc.of_append

theorem UtxoView.congr (h : UtxoView s past new st) (hcaches : utxoCaches st' = utxoCaches st)
    (h₁ : pending s st' .utxos = pending s st .utxos)
    (h₂ : pending s st' .utxosUnspentByOwner = pending s st .utxosUnspentByOwner) :
    UtxoView s past new st' := by
  have hcreated : st'.createdThisBlock = st.createdThisBlock := congrArg Prod.fst hcaches
  have hdeltas : st'.balanceDeltas = st.balanceDeltas := congrArg (fun c => c.2.1) hcaches
  refine ⟨?_, h.tables.congr h₁ h₂, ?_⟩
  · rw [hcreated, h₁]
    exact h.mirrors
  · rw [hdeltas]
    exact h.deltas

theorem writeTransaction_nextTxId {height : Nat} {entry : AppliedTransaction × Nat}
    (hrun : writeTransaction s height st entry = .ok st') :
    st'.ids.nextTxId = increment st.ids.nextTxId := by
  obtain ⟨st₁, st₂, ids, st₃, h₁, h₂, h₃, rfl⟩ := writeTransaction_ok.mp hrun
  have hevents : st₃.ids.nextTxId = st₂.ids.nextTxId := by
    refine foldl_invariant (I := fun a => a.ids.nextTxId = st₂.ids.nextTxId) h₃ rfl ?_
    intro event _ a ha
    rw [← ha, writeLedgerEvent]
    dsimp only
    rw [stageLedgerEvent_ids]
  have hactions : st₂.ids.nextTxId = st₁.ids.nextTxId := by
    refine foldl_invariant (I := fun a => a.1.ids.nextTxId = st₁.ids.nextTxId) h₂ rfl ?_
    intro action _ a ha
    rw [← ha, writeContractAction]
    dsimp only
    rw [stageContractAction_ids]
  have hutxos := (utxos_frame (q := .metadata) (by decide) h₁).2
  rw [stageKeyIndexes_ids] at hutxos
  show st₃.ids.nextTxId = _
  rw [hevents, hactions, hutxos]

structure SameUtxos (s : Store) (st st' : Staged) : Prop where
  caches : utxoCaches st' = utxoCaches st
  utxos : pending s st' .utxos = pending s st .utxos
  unspent : pending s st' .utxosUnspentByOwner = pending s st .utxosUnspentByOwner

theorem writeTransaction_utxos {height index : Nat} {applied : AppliedTransaction}
    (hrun : writeTransaction s height st (applied, index) = .ok st') :
    ∃ st₀ st₁, SameUtxos s st st₀ ∧ applied.spentUtxos.foldlM (spendUtxo s st.ids.nextTxId)
      (applied.createdUtxos.foldl (createUtxo st.ids.nextTxId) st₀) = .ok st₁ ∧ SameUtxos s st₁ st' := by
  obtain ⟨st₁, st₂, ids, st₃, h₁, h₂, h₃, rfl⟩ := writeTransaction_ok.mp hrun
  refine ⟨stageKeyIndexes { st with ids := { st.ids with nextTxId := increment st.ids.nextTxId } } applied
    st.ids.nextTxId, st₁, ⟨?_, ?_, ?_⟩, h₁, ?_, ?_, ?_⟩
  · exact stageKeyIndexes_caches _ _
  · exact stageKeyIndexes_frame (by decide) _ _
  · exact stageKeyIndexes_frame (by decide) _ _
  · exact (writeLedgerEvents_frame (s := s) (q := .metadata) (by decide) h₃).2.trans
      (writeContractActions_frame (q := .metadata) (by decide) h₂).2
  · rw [pending_put_other _ _ (by decide), (writeLedgerEvents_frame (by decide) h₃).1,
      (writeContractActions_frame (by decide) h₂).1]
  · rw [pending_put_other _ _ (by decide), (writeLedgerEvents_frame (by decide) h₃).1,
      (writeContractActions_frame (by decide) h₂).1]

theorem UtxoView.transaction {height index : Nat} {applied : AppliedTransaction}
    (h : UtxoView s past new st)
    (hc : LedgerConsistent (past ++ (new ++ txMoves st.ids.nextTxId applied)))
    (hrun : writeTransaction s height st (applied, index) = .ok st') :
    UtxoView s past (new ++ txMoves st.ids.nextTxId applied) st' := by
  obtain ⟨st₀, st₁, hsame, hspend, hsame'⟩ := writeTransaction_utxos hrun
  have hstart : UtxoView s past new st₀ := h.congr hsame.caches hsame.utxos hsame.unspent
  have hc₁ : LedgerConsistent ((past ++ (new ++ applied.createdUtxos.map
      (Move.create st.ids.nextTxId))) ++ applied.spentUtxos.map (Move.spend st.ids.nextTxId)) := by
    simpa [txMoves, List.append_assoc] using hc
  have hcreated := hstart.createAll hc₁.of_append
  have hspent := hcreated.spendAll (by rwa [List.append_assoc] at hc₁) hspend
  rw [txMoves, ← List.append_assoc]
  exact hspent.congr hsame'.caches hsame'.utxos hsame'.unspent

def blockMoves (first : Nat) (entries : List (AppliedTransaction × Nat)) : List UtxoMove :=
  entries.flatMap (fun entry => txMoves (first + entry.2) entry.1)

theorem UtxoView.loop {height : Nat} {transactions : List AppliedTransaction}
    (h : UtxoView s past [] st) (hroom : Room st.ids transactions)
    (hc : LedgerConsistent (past ++ blockMoves st.ids.nextTxId transactions.zipIdx))
    (hrun : transactions.zipIdx.foldlM (writeTransaction s height) st = .ok st') :
    UtxoView s past (blockMoves st.ids.nextTxId transactions.zipIdx) st' := by
  have hids : st.ids.nextTxId + transactions.length < 2 ^ 64 := hroom.txs
  have general : ∀ (txs : List AppliedTransaction) (k : Nat) (new : List UtxoMove) (a : Staged),
      k + txs.length ≤ transactions.length → a.ids.nextTxId = st.ids.nextTxId + k → UtxoView s past new a →
      LedgerConsistent (past ++ (new ++ blockMoves st.ids.nextTxId (txs.zipIdx k))) →
      (txs.zipIdx k).foldlM (writeTransaction s height) a = .ok st' →
      UtxoView s past (new ++ blockMoves st.ids.nextTxId (txs.zipIdx k)) st' := by
    intro txs
    induction txs with
    | nil =>
        intro k new a _ _ hview _ hrest
        obtain rfl := foldlM_nil_ok.mp hrest
        simpa [blockMoves] using hview
    | cons applied txs ih =>
        intro k new a hlen hid hview hcons hrest
        obtain ⟨a₁, hone, hrest⟩ := foldlM_cons_ok.mp hrest
        have hsplit : new ++ blockMoves st.ids.nextTxId ((applied :: txs).zipIdx k) =
            (new ++ txMoves a.ids.nextTxId applied) ++
              blockMoves st.ids.nextTxId (txs.zipIdx (k + 1)) := by
          simp [blockMoves, hid]
        rw [hsplit] at hcons ⊢
        have hunder : LedgerConsistent (past ++ (new ++ txMoves a.ids.nextTxId applied)) := by
          rw [← List.append_assoc] at hcons
          exact hcons.of_append
        rw [List.length_cons] at hlen
        refine ih (k + 1) _ a₁ (by omega) ?_ (hview.transaction hunder hone) hcons hrest
        rw [writeTransaction_nextTxId hone, hid, increment_eq (by omega), Nat.add_assoc]
  simpa using general transactions 0 [] st (by simp) rfl h (by simpa using hc) hrun

end Steps

/-- The balance table holds the unspent total of every pair touched so far. -/
def Balances (view : Store) (moves : List UtxoMove) : Prop :=
  ∀ owner tokenType, (view .balances)[balanceKey owner tokenType]? =
    if ∃ move ∈ moves, Touches owner tokenType move then
      some (unspentTotal view owner tokenType) else none

def Bounded (moves : List UtxoMove) : Prop :=
  ∀ owner tokenType, total owner tokenType moves < 2 ^ 127

section Block

variable {s s' : Store} {d : DerivedBlock} {ledgerStateKey : Bytes} {window : LedgerStateWindow}
  {ids ids' : Counters} {past : List UtxoMove}

theorem touched_append {owner tokenType : ByteArr 32} {moves more : List UtxoMove} :
    (∃ move ∈ moves ++ more, Touches owner tokenType move) ↔
      (∃ move ∈ moves, Touches owner tokenType move) ∨
        ∃ move ∈ more, Touches owner tokenType move := by
  simp only [List.mem_append, or_and_right, exists_or]

theorem Balances.current (ht : UtxoTables s past) (hb : Balances s past)
    (owner tokenType : ByteArr 32) :
    (((s .balances)[balanceKey owner tokenType]?.getD 0 : Nat) : Int) =
      total owner tokenType past := by
  rw [hb]
  split
  · exact ht.sums owner tokenType
  · rename_i hno
    exact (total_untouched hno).symm

theorem writeBlock_utxos (ht : UtxoTables s past) (hb : Balances s past) (hroom : Room ids d.transactions)
    (hc : LedgerConsistent (past ++ blockMoves ids.nextTxId d.transactions.zipIdx))
    (hbound : Bounded (past ++ blockMoves ids.nextTxId d.transactions.zipIdx))
    (hblock : writeBlock s d.block d.transactions ledgerStateKey window ids = .ok (s', ids')) :
    UtxoTables s' (past ++ blockMoves ids.nextTxId d.transactions.zipIdx) ∧
      Balances s' (past ++ blockMoves ids.nextTxId d.transactions.zipIdx) := by
  obtain ⟨st, balances, hloop, htail, hs, rfl⟩ := writeBlock_ok.mp hblock
  have hstart : UtxoView s past [] (Staged.start ids) := by
    refine ⟨Mirrors.start _, by simpa using ht, ?_⟩
    intro owner tokenType
    simp [Staged.start]
  have hview := hstart.loop hroom hc hloop
  have htables : UtxoTables s' (past ++ blockMoves ids.nextTxId d.transactions.zipIdx) := by
    refine hview.tables.congr ?_ ?_ <;>
    · rw [hs, blockBatch_frame (by decide) htail]
  refine ⟨htables, ?_⟩
  intro owner tokenType
  obtain ⟨hsome, hnone⟩ := blockBatch_balances ledgerStateKey window hloop htail
    (balanceKey owner tokenType)
  rw [← hs] at hsome hnone
  have hdelta := hview.deltas owner tokenType
  by_cases htouch : ∃ move ∈ blockMoves ids.nextTxId d.transactions.zipIdx,
      Touches owner tokenType move
  · obtain ⟨updated, hu, hget⟩ := hsome _ (hdelta.trans (if_pos htouch))
    rw [hget, if_pos (touched_append.mpr (.inr htouch))]
    have hsum := htables.sums owner tokenType
    have hnew : (updated : Int) = total owner tokenType
        (past ++ blockMoves ids.nextTxId d.transactions.zipIdx) := by
      rw [hu, hb.current ht, wrapI128_add]
      have happend : total owner tokenType past +
          total owner tokenType (blockMoves ids.nextTxId d.transactions.zipIdx) =
          total owner tokenType (past ++ blockMoves ids.nextTxId d.transactions.zipIdx) := by
        simp [total]
      exact (congrArg wrapI128 happend).trans (wrapI128_of_lt (by omega) (hbound _ _))
    exact congrArg some (by omega)
  · rw [hnone (hdelta.trans (if_neg htouch)), hb]
    have hsame : unspentTotal s' owner tokenType = unspentTotal s owner tokenType := by
      have h₁ := htables.sums owner tokenType
      have h₂ := ht.sums owner tokenType
      rw [total, net_append, ← total, ← total, total_untouched htouch] at h₁
      omega
    simp only [touched_append, htouch, or_false, hsame]

end Block

section Runs

theorem zipIdx_shift {α : Type} (xs : List α) (n : Nat) :
    xs.zipIdx n = xs.zipIdx.map (fun e => (e.1, n + e.2)) := by
  rw [List.zipIdx_eq_map_add]

theorem movesOf_push (blocks : List DerivedBlock) (d : DerivedBlock) :
    movesOf (blocks ++ [d]) = movesOf blocks ++
      blockMoves (blocks.flatMap DerivedBlock.transactions).length d.transactions.zipIdx := by
  simp only [movesOf, blockMoves, List.flatMap_append, List.flatMap_singleton, List.zipIdx_append,
    Nat.zero_add]
  rw [zipIdx_shift d.transactions, List.flatMap_map]

theorem logOf_utxos (blocks : List DerivedBlock) :
    (logOf blocks).txs.map (fun record => (record.createdUtxos, record.spentUtxos)) =
      (blocks.flatMap DerivedBlock.transactions).map
        (fun applied => (applied.createdUtxos, applied.spentUtxos)) := by
  have hloop : ∀ (height : Nat) (entries : List (AppliedTransaction × Nat)) (log : ChainLog),
      (entries.foldl (ChainLog.addTransaction height) log).txs.map
          (fun record => (record.createdUtxos, record.spentUtxos)) =
        log.txs.map (fun record => (record.createdUtxos, record.spentUtxos)) ++
          entries.map (fun e => (e.1.createdUtxos, e.1.spentUtxos)) := by
    intro height entries
    induction entries with
    | nil => simp
    | cons e entries ih =>
        intro log
        rw [List.foldl_cons, ih]
        simp [ChainLog.addTransaction, ChainLog.newTx, txRecord]
  induction blocks using List.reverseRecOn with
  | nil => rfl
  | append_singleton blocks d ih =>
      rw [logOf_push, ChainLog.addBlock, ChainLog.addTransactions, List.flatMap_append,
        List.map_append, ← ih, hloop]
      congr 1
      have hfst : d.transactions.zipIdx.map Prod.fst = d.transactions := List.zipIdx_map_fst 0 _
      conv_rhs => rw [List.flatMap_singleton, ← hfst, List.map_map]
      rfl

theorem logOf_txs_length (blocks : List DerivedBlock) :
    (logOf blocks).txs.length = (blocks.flatMap DerivedBlock.transactions).length := by
  simpa using congrArg List.length (logOf_utxos blocks)

/-- What the five tables say about the UTXO set after the moves of a run. -/
structure UtxosAgree (s : Store) (moves : List UtxoMove) : Prop where
  /-- every record is that of a created UTXO and names the transactions that created and spent it -/
  records : ∀ key record, (s .utxos)[key]? = some record ↔
    .create record.creatingTxId record.utxo ∈ moves ∧ outpointKey record.utxo = key ∧
      ∀ txId, record.spendingTxId = some txId ↔
        ∃ utxo, .spend txId utxo ∈ moves ∧ outpointKey utxo = key
  /-- the unspent index holds an entry for each unspent record, and no other -/
  unspent : ∀ k key, (s .utxosUnspentByOwner)[k]? = some key ↔
    ∃ record, (s .utxos)[key]? = some record ∧ record.spendingTxId = none ∧
      k = unspentKey record.utxo ∧ key = outpointKey record.utxo
  /-- and different records have different entries -/
  distinct : ∀ (key key' : Bytes) (record record' : UtxoRecord), (s .utxos)[key]? = some record →
    (s .utxos)[key']? = some record' → unspentKey record.utxo = unspentKey record'.utxo →
    key = key' ∧ record = record'
  balances : ∀ owner tokenType, (∃ move ∈ moves, Touches owner tokenType move) →
    (s .balances)[balanceKey owner tokenType]? = some (unspentTotal s owner tokenType)
  untouched : ∀ owner tokenType, (¬ ∃ move ∈ moves, Touches owner tokenType move) →
    (s .balances)[balanceKey owner tokenType]? = none
  addrTxs : ∀ k : Bytes, k ∈ s .addrTxs ↔
    ∃ move ∈ moves, k = prefixedU64Key move.coin.owner.val move.txId

theorem run_utxoTables {blocks : List DerivedBlock} {s : Store} {ids : Counters}
    (h : Run blocks s ids) (hc : LedgerConsistent (movesOf blocks))
    (hbound : ∀ n, Bounded (movesOf (blocks.take n))) :
    UtxoTables s (movesOf blocks) ∧ Balances s (movesOf blocks) := by
  induction h with
  | start =>
      refine ⟨UtxoTables.start, ?_⟩
      intro owner tokenType
      simp [fresh_other, movesOf]
  | @step blocks s s' ids ids' d ledgerStateKey window h hroom hblock ih =>
      have hids : ids.nextTxId = (blocks.flatMap DerivedBlock.transactions).length := by
        rw [h.holds.counters, ← logOf_txs_length]
        rfl
      have hlast := hbound (blocks.length + 1)
      rw [List.take_of_length_le (by simp)] at hlast
      rw [movesOf_push, ← hids] at hc hlast ⊢
      obtain ⟨ht, hb⟩ := ih hc.of_append (fun n => by
        by_cases hn : n ≤ blocks.length
        · simpa [List.take_append_of_le_length hn] using hbound n
        · have hall := hbound blocks.length
          rw [List.take_append_of_le_length (Nat.le_refl _), List.take_length] at hall
          rwa [List.take_of_length_le (by omega)])
      exact writeBlock_utxos ht hb hroom hc hlast hblock
  | @scan blocks s s' ids h hscan ih =>
      obtain ⟨ht, hb⟩ := ih hc hbound
      have hutxos : s' .utxos = s .utxos := hscan _ (by decide)
      refine ⟨ht.congr hutxos (hscan _ (by decide)), ?_⟩
      intro owner tokenType
      rw [hscan _ (by decide), hb, unspentTotal, unspentTotal, hutxos]

theorem mem_movesOf {blocks : List DerivedBlock} {k : Bytes} :
    (∃ move ∈ movesOf blocks, k = prefixedU64Key move.coin.owner.val move.txId) ↔
      ∃ i record, (logOf blocks).txs[i]? = some record ∧ k ∈ addressKeys record i := by
  have hget : ∀ i : Nat, (logOf blocks).txs[i]?.map
      (fun record : TxRecord => (record.createdUtxos, record.spentUtxos)) =
      (blocks.flatMap DerivedBlock.transactions)[i]?.map
        (fun applied : AppliedTransaction => (applied.createdUtxos, applied.spentUtxos)) := by
    intro i
    rw [← List.getElem?_map, ← List.getElem?_map, logOf_utxos]
  have hkeys : ∀ (applied : AppliedTransaction) (i : Nat),
      (∃ move ∈ txMoves i applied, k = prefixedU64Key move.coin.owner.val move.txId) ↔
        k ∈ (owners applied.createdUtxos applied.spentUtxos).map
          (fun owner => prefixedU64Key owner.val i) := by
    intro applied i
    simp [txMoves, owners, or_and_right, exists_or, eq_comm, Move.coin, Move.txId]
  have hmoves : (∃ move ∈ movesOf blocks, k = prefixedU64Key move.coin.owner.val move.txId) ↔
      ∃ (i : Nat) (applied : AppliedTransaction),
        (blocks.flatMap DerivedBlock.transactions)[i]? = some applied ∧
        k ∈ (owners applied.createdUtxos applied.spentUtxos).map
          (fun owner => prefixedU64Key owner.val i) := by
    simp only [movesOf, List.mem_flatMap, Prod.exists, List.mk_mem_zipIdx_iff_getElem?, ← hkeys]
    constructor
    · rintro ⟨move, ⟨applied, i, hi, hmem⟩, hk⟩
      exact ⟨i, applied, hi, move, hmem, hk⟩
    · rintro ⟨i, applied, hi, move, hmem, hk⟩
      exact ⟨move, ⟨applied, i, hi, hmem⟩, hk⟩
  rw [hmoves]
  constructor
  · rintro ⟨i, applied, hi, hk⟩
    have h := hget i
    rw [hi, Option.map_some, Option.map_eq_some_iff] at h
    obtain ⟨record, hr, he⟩ := h
    obtain ⟨hc, hs⟩ := Prod.mk.inj he
    exact ⟨i, record, hr, by rwa [addressKeys, hc, hs]⟩
  · rintro ⟨i, record, hr, hk⟩
    have h := (hget i).symm
    rw [hr, Option.map_some, Option.map_eq_some_iff] at h
    obtain ⟨applied, ha, he⟩ := h
    obtain ⟨hc, hs⟩ := Prod.mk.inj he
    exact ⟨i, applied, ha, by rwa [hc, hs]⟩

/-- After every block of a run over ledger-consistent blocks, the UTXO records,
the unspent index, the balances and the address history agree with the moves. -/
theorem run_utxosAgree {blocks : List DerivedBlock} {s : Store} {ids : Counters}
    (h : Run blocks s ids) (hc : LedgerConsistent (movesOf blocks))
    (hbound : ∀ n, Bounded (movesOf (blocks.take n))) : UtxosAgree s (movesOf blocks) := by
  obtain ⟨ht, hb⟩ := run_utxoTables h hc hbound
  have hrecords : ∀ (key : Bytes) (record : UtxoRecord), (s .utxos)[key]? = some record ↔
      (s .utxos)[key]?.map entryOf = some (entryOf record) := by
    intro key record
    constructor
    · intro hr
      rw [hr]
      rfl
    · intro hr
      obtain ⟨⟨utxo, createdBy, spentBy⟩, hr', he⟩ := Option.map_eq_some_iff.mp hr
      simp only [entryOf, Entry.mk.injEq] at he
      obtain ⟨rfl, rfl, rfl⟩ := he
      exact hr'
  refine ⟨?_, ?_, ?_, ?_, ?_, ?_⟩
  · intro key record
    rw [hrecords]
    exact ht.records key (entryOf record)
  · intro k key
    rw [ht.unspent]
    constructor
    · rintro ⟨record, hr, hs, hk⟩
      exact ⟨record, hr, hs, hk, (ht.key hr).symm⟩
    · rintro ⟨record, hr, hs, hk, -⟩
      exact ⟨record, hr, hs, hk⟩
  · intro key key' record record' hr hr' hk
    have hkey : key = key' := by
      rw [← ht.key hr, ← ht.key hr']
      exact unspentKey_outpoint hk
    subst hkey
    exact ⟨rfl, Option.some.inj (hr.symm.trans hr')⟩
  · intro owner tokenType htouch
    rw [hb, if_pos htouch]
  · intro owner tokenType htouch
    rw [hb, if_neg htouch]
  · intro k
    rw [mem_movesOf]
    exact h.holds.addrTxs k

def sampleUtxo : UnshieldedUtxo where
  owner := .filled 32 1
  tokenType := .filled 32 0
  value := 5
  intentHash := .filled 32 7
  outputIndex := 0
  ctime := none
  initialNonce := .filled 32 0
  registeredForDustGeneration := false
  value_lt := by decide
  outputIndex_lt := by decide

def sampleBlocks : List DerivedBlock :=
  [⟨emptyBlock 0 zero_lt_u64,
    [{ emptyTransaction with createdUtxos := [sampleUtxo], spentUtxos := [sampleUtxo] }],
    by simp [Derived, emptyTransaction]⟩]

theorem run_utxosAgree_sample : ∃ s ids, Run sampleBlocks s ids ∧ UtxosAgree s (movesOf sampleBlocks) := by
  obtain ⟨⟨s, ids⟩, hblock⟩ := exists_ok (x := writeBlock fresh (emptyBlock 0 zero_lt_u64)
    [{ emptyTransaction with createdUtxos := [sampleUtxo], spentUtxos := [sampleUtxo] }] [] []
    (Counters.load fresh)) (by decide)
  have hrun : Run sampleBlocks s ids := Run.start.step _ [] [] (by decide +kernel) hblock
  have hmoves : movesOf sampleBlocks = [.create 0 sampleUtxo, .spend 0 sampleUtxo] := rfl
  refine ⟨s, ids, hrun, run_utxosAgree hrun ?_ ?_⟩
  · rw [hmoves]
    have hstart : LedgerConsistent [] := Consistent.nil
    have hcreate : LedgerConsistent [.create 0 sampleUtxo] :=
      hstart.push (fun txId c h => absurd h List.not_mem_nil)
    exact hcreate.push ⟨by simp, 0, sampleUtxo, by simp, rfl, rfl, rfl, rfl⟩
  · intro n owner tokenType
    cases n with
    | zero => simp [movesOf, total]
    | succ n =>
        rw [sampleBlocks, List.take_succ_cons, List.take_nil, ← sampleBlocks, hmoves]
        simp [total, net, Move.delta]

end Runs

end Nightfrost.UtxoSet
