import Nightfrost.ServedStore
import Nightfrost.Tiling

namespace Nightfrost.SyncTiles

open ByteOrder Tables Partitions Domain Schema WriteBlock MovingStore Api ExceptFold EntityLog
  BlockStep BlockRun ShieldedSync ServedStore Tiling

variable {libs : WalletLibs}

/-- Each transaction starts at the Zswap index where the one before it ended. -/
structure Contiguous (indices : List WalletTxIndexRecord) : Prop where
  proper : ∀ (i : Nat) (a : WalletTxIndexRecord), indices[i]? = some a →
    a.zswapStartIndex ≤ a.zswapEndIndex
  joined : ∀ (i : Nat) (a b : WalletTxIndexRecord), indices[i]? = some a →
    indices[i + 1]? = some b → b.zswapStartIndex = a.zswapEndIndex

theorem Contiguous.le {indices : List WalletTxIndexRecord} (h : Contiguous indices) {i j : Nat}
    {a b : WalletTxIndexRecord} (hij : i < j) (ha : indices[i]? = some a)
    (hb : indices[j]? = some b) : a.zswapEndIndex ≤ b.zswapStartIndex := by
  induction j generalizing b with
  | zero => omega
  | succ j ih =>
      obtain ⟨c, hc⟩ : ∃ c, indices[j]? = some c := by
        have hlen := (List.getElem?_eq_some_iff.mp hb).1
        exact ⟨_, List.getElem?_eq_getElem (by omega)⟩
      have hjoin := h.joined j c b hc hb
      rcases Nat.lt_or_eq_of_le (Nat.le_of_lt_succ hij) with hlt | rfl
      · have h₁ := ih hlt hc
        have h₂ := h.proper j c hc
        omega
      · obtain rfl := Option.some.inj (ha.symm.trans hc)
        omega

theorem Contiguous.end_le {indices : List WalletTxIndexRecord} (h : Contiguous indices)
    {txId last : Nat} {index boundary : WalletTxIndexRecord} (hle : txId ≤ last)
    (hindex : indices[txId]? = some index) (hlast : indices[last]? = some boundary) :
    index.zswapEndIndex ≤ boundary.zswapEndIndex := by
  rcases Nat.lt_or_eq_of_le hle with hlt | rfl
  · exact Nat.le_trans (h.le hlt hindex hlast) (h.proper last boundary hlast)
  · obtain rfl := Option.some.inj (hindex.symm.trans hlast)
    exact Nat.le_refl _

def spanAt (indices : List WalletTxIndexRecord) (txId : Nat) : Span :=
  match indices[txId]? with
  | some index => ⟨txId, index.zswapStartIndex, index.zswapEndIndex⟩
  | none => ⟨txId, 0, 0⟩

@[simp] theorem spanAt_id (indices : List WalletTxIndexRecord) (txId : Nat) :
    (spanAt indices txId).id = txId := by
  rw [spanAt]
  split <;> rfl

theorem spanAt_of {indices : List WalletTxIndexRecord} {txId : Nat} {index : WalletTxIndexRecord}
    (h : indices[txId]? = some index) :
    spanAt indices txId = ⟨txId, index.zswapStartIndex, index.zswapEndIndex⟩ := by
  rw [spanAt, h]

theorem ordered_spans {indices : List WalletTxIndexRecord} (h : Contiguous indices)
    {txIds : List Nat} (hsorted : txIds.Pairwise (· < ·)) (hlt : ∀ txId ∈ txIds, txId < indices.length) :
    Ordered (txIds.map (spanAt indices)) := by
  have hget : ∀ txId ∈ txIds, indices[txId]? = some (indices.getD txId ⟨0, 0, 0⟩) := by
    intro txId hmem
    rw [List.getD_eq_getElem?_getD, List.getElem?_eq_getElem (hlt txId hmem)]
    rfl
  refine ⟨?_, ?_, ?_⟩
  · rw [List.pairwise_map]
    exact hsorted.imp (fun hab => by simpa using hab)
  · rw [List.pairwise_map]
    apply hsorted.imp_of_mem
    intro a b ha hb hab
    rw [spanAt_of (hget a ha), spanAt_of (hget b hb)]
    exact h.le hab (hget a ha) (hget b hb)
  · intro span hs
    obtain ⟨txId, hmem, rfl⟩ := List.mem_map.mp hs
    rw [spanAt_of (hget txId hmem)]
    exact h.proper txId _ (hget txId hmem)

section Rows

def relevanceKeys (s : Store) (viewingHash : ByteArr 32) : List Bytes :=
  (scanPrefix (s .walletRelevantTxs) viewingHash.val).map Prod.fst

def relevantIds (s : Store) (viewingHash : ByteArr 32) : List Nat :=
  (relevanceKeys s viewingHash).map keyU64Suffix

variable {s : Store} {ids : Counters} {viewingHash : ByteArr 32}

theorem relevanceKey_suffix {txId : Nat} (h : txId < 2 ^ 64) :
    keyU64Suffix (walletRelevanceKey viewingHash txId) = txId :=
  prefixedU64Key_suffix viewingHash.val h

theorem mem_relevanceKeys (hw : WalletTables s ids) {k : Bytes} :
    k ∈ relevanceKeys s viewingHash ↔
      ∃ txId, txId < ids.nextTxId ∧ k = walletRelevanceKey viewingHash txId ∧
        Marked s viewingHash txId := by
  simp only [relevanceKeys, List.mem_map, mem_scanPrefix, Prod.exists]
  constructor
  · rintro ⟨key, ⟨⟩, ⟨hrow, hunder⟩, rfl⟩
    have hmem : key ∈ s .walletRelevantTxs := mem_unit_iff.mpr hrow
    obtain ⟨hash, txId, hlt, rfl⟩ := hw.keys key hmem
    obtain ⟨rest, hrest⟩ := hunder
    obtain ⟨he, -⟩ := List.append_inj hrest (by rw [viewingHash.property, hash.property])
    obtain rfl := Subtype.ext he
    exact ⟨txId, hlt, rfl, hmem⟩
  · rintro ⟨txId, -, rfl, hmem⟩
    exact ⟨_, (), ⟨mem_unit_iff.mp hmem, List.prefix_append _ _⟩, rfl⟩

theorem relevantIds_sorted (hw : WalletTables s ids) (hb : ids.nextTxId ≤ 2 ^ 64) :
    (relevantIds s viewingHash).Pairwise (· < ·) := by
  rw [relevantIds, List.pairwise_map]
  have hsorted : (relevanceKeys s viewingHash).Pairwise (fun a b => compare a b = .lt) := by
    rw [relevanceKeys, List.pairwise_map]
    exact scanPrefix_sorted _ _
  apply hsorted.imp_of_mem
  intro a b ha hb' hab
  obtain ⟨i, hi, rfl, -⟩ := (mem_relevanceKeys hw).mp ha
  obtain ⟨j, hj, rfl, -⟩ := (mem_relevanceKeys hw).mp hb'
  rw [relevanceKey_suffix (by omega), relevanceKey_suffix (by omega)]
  rw [walletRelevanceKey, walletRelevanceKey, compare_append_left,
    compare_be (by omega) (by omega)] at hab
  exact Nat.compare_eq_lt.mp hab

theorem mem_relevantIds (hw : WalletTables s ids) (hb : ids.nextTxId ≤ 2 ^ 64) {txId : Nat} :
    txId ∈ relevantIds s viewingHash ↔ txId < ids.nextTxId ∧ Marked s viewingHash txId := by
  simp only [relevantIds, List.mem_map]
  constructor
  · rintro ⟨k, hk, rfl⟩
    obtain ⟨i, hi, rfl, hm⟩ := (mem_relevanceKeys hw).mp hk
    rw [relevanceKey_suffix (by omega)]
    exact ⟨hi, hm⟩
  · rintro ⟨hlt, hm⟩
    exact ⟨_, (mem_relevanceKeys hw).mpr ⟨txId, hlt, rfl, hm⟩, relevanceKey_suffix (by omega)⟩

end Rows

section Loop

def tileOf : ShieldedSyncUpdate → Tile
  | .collapsed fromIndex toIndex _ _ => .gap fromIndex toIndex
  | .transaction fromIndex toIndex _ txId _ _ => .entry ⟨txId, fromIndex, toIndex⟩

/-- A collapsed update is what the builder returns for the inclusive bounds of
its half-open range. -/
def Built (libs : WalletLibs) (ledgerState : libs.Ledger) : ShieldedSyncUpdate → Prop
  | .collapsed fromIndex toIndex _ update =>
      fromIndex < toIndex ∧ ∃ bytes, update = hexEncode bytes ∧
        libs.makeZswapCollapsedUpdate ledgerState fromIndex (toIndex - 1) = .ok bytes
  | .transaction _ _ _ _ _ _ => True

variable {s : Store} {ledgerState : libs.Ledger} {protocolVersion targetTx : Nat}
  {indices : List WalletTxIndexRecord}

theorem internal_ok {α : Type} {x : Except String α} {a : α} : internal x = .ok a ↔ x = .ok a := by
  cases x <;> simp [internal]

theorem collapsedUpdate_ok {lo hi : Nat} {gap : List ShieldedSyncUpdate}
    (h : (collapsedUpdate libs ledgerState protocolVersion lo hi).at s = .ok gap) :
    gap.map tileOf = (if lo < hi then [Tile.gap lo hi] else []) ∧
      ∀ update ∈ gap, Built libs ledgerState update := by
  rw [collapsedUpdate] at h
  split at h
  · rename_i hlt
    rw [at_bind, bind_ok] at h
    obtain ⟨bytes, hbytes, hu⟩ := h
    rw [at_liftExcept, internal_ok] at hbytes
    obtain rfl := Except.ok.inj hu
    refine ⟨by rw [if_pos hlt]; rfl, ?_⟩
    intro update hmem
    rw [List.mem_singleton.mp hmem]
    exact ⟨hlt, bytes, rfl, hbytes⟩
  · rename_i hlt
    obtain rfl := Except.ok.inj h
    exact ⟨by rw [if_neg hlt]; rfl, by simp⟩

theorem transactionUpdate_ok {txId : Nat} {index : WalletTxIndexRecord} {update : ShieldedSyncUpdate}
    (h : (transactionUpdate txId index).at s = .ok update) :
    tileOf update = .entry ⟨txId, index.zswapStartIndex, index.zswapEndIndex⟩ ∧
      Built libs ledgerState update := by
  rw [transactionUpdate, at_query_bind] at h
  cases hr : tx s txId with
  | none => rw [hr] at h; cases h
  | some record =>
      rw [hr] at h
      simp only [at_bind, bind_ok] at h
      obtain ⟨events, -, hu⟩ := h
      obtain rfl := Except.ok.inj hu
      exact ⟨rfl, trivial⟩

def spansBelow (indices : List WalletTxIndexRecord) (targetTx : Nat) (keys : List Bytes) : List Span :=
  ((keys.map keyU64Suffix).takeWhile (· < targetTx)).map (spanAt indices)

theorem spansBelow_cons {keys : List Bytes} {key : Bytes} (h : keyU64Suffix key < targetTx) :
    spansBelow indices targetTx (key :: keys) =
      spanAt indices (keyU64Suffix key) :: spansBelow indices targetTx keys := by
  rw [spansBelow, List.map_cons, List.takeWhile_cons_of_pos (by simpa using h)]
  rfl

theorem updateLoop_ok {keys : List Bytes} {updates updates' : List ShieldedSyncUpdate}
    {boundary last : Nat} (hindex : ∀ txId < targetTx, walletTxIndexOf s txId = indices[txId]?)
    (h : (updateLoop libs ledgerState protocolVersion targetTx keys updates boundary).at s =
      .ok (updates', last)) :
    ∃ new, updates' = updates ++ new ∧
      walk boundary (spansBelow indices targetTx keys) = some (new.map tileOf, last) ∧
      ∀ update ∈ new, Built libs ledgerState update := by
  induction keys generalizing updates boundary with
  | nil =>
      obtain ⟨rfl, rfl⟩ := Prod.mk.inj (Except.ok.inj h)
      exact ⟨[], by simp, rfl, by simp⟩
  | cons key keys ih =>
      rw [updateLoop] at h
      by_cases htarget : keyU64Suffix key ≥ targetTx
      · simp only [if_pos htarget] at h
        obtain ⟨rfl, rfl⟩ := Prod.mk.inj (Except.ok.inj h)
        refine ⟨[], by simp, ?_, by simp⟩
        rw [spansBelow, List.map_cons, List.takeWhile_cons_of_neg (by simpa using htarget)]
        rfl
      · simp only [if_neg htarget] at h
        have hlt := Nat.lt_of_not_le htarget
        rw [at_query_bind, hindex _ hlt] at h
        rw [spansBelow_cons hlt]
        cases hget : indices[keyU64Suffix key]? with
        | none => rw [hget] at h; cases h
        | some index =>
            rw [hget] at h
            rw [spanAt_of hget, walk]
            change (if _ then _ else _ : Handler _).at s = _ at h
            split at h
            · rename_i hskip
              rw [if_pos hskip]
              exact ih h
            · rename_i hskip
              rw [if_neg hskip]
              split at h
              · cases h
              · rename_i hcut
                rw [if_neg hcut]
                simp only [at_bind, bind_ok] at h
                obtain ⟨gap, hgap, update, hupdate, hrest⟩ := h
                obtain ⟨new, rfl, hwalk, hbuilt⟩ := ih hrest
                obtain ⟨htile, hgapBuilt⟩ := collapsedUpdate_ok hgap
                obtain ⟨hentry, hupdateBuilt⟩ := transactionUpdate_ok hupdate
                refine ⟨gap ++ update :: new, by simp, ?_, ?_⟩
                · rw [hwalk, Option.map_some, List.map_append, List.map_cons, htile, hentry]
                · intro u hu
                  rcases List.mem_append.mp hu with hu | hu
                  · exact hgapBuilt u hu
                  · rcases List.mem_cons.mp hu with rfl | hu
                    · exact hupdateBuilt
                    · exact hbuilt u hu

end Loop

end Nightfrost.SyncTiles
