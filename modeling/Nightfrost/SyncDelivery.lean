import Nightfrost.SyncAnswer

namespace Nightfrost.SyncDelivery

open ByteOrder Tables Partitions Domain Schema WriteBlock MovingStore Api ExceptFold EntityLog
  BlockStep BlockRun ShieldedSync ServedStore Tiling SyncTiles SyncAnswer

variable {libs : WalletLibs} {blocks more : List DerivedBlock} {s s' : Store} {ids : Counters}
  {viewingHash viewingKey : ByteArr 32} {key : String} {fromIndex : Nat}
  {answer : PointResponse ShieldedSyncResult}

section Range

def highestOf (blocks : List DerivedBlock) : Nat :=
  if targetOf blocks = 0 then 0
  else (((logOf blocks).walletTxIndices[targetOf blocks - 1]?).map
    WalletTxIndexRecord.zswapEndIndex).getD 0

theorem highestOf_pos (h : Run blocks s ids) (hpos : 0 < targetOf blocks) :
    ∃ boundary, (logOf blocks).walletTxIndices[targetOf blocks - 1]? = some boundary ∧
      highestOf blocks = boundary.zswapEndIndex := by
  have hle := targetOf_le_indices h
  have hget := List.getElem?_eq_getElem
    (show targetOf blocks - 1 < (logOf blocks).walletTxIndices.length by omega)
  refine ⟨_, hget, ?_⟩
  rw [highestOf, if_neg (by omega), hget]
  rfl

theorem index_later {txId : Nat} {index : WalletTxIndexRecord} (more : List DerivedBlock)
    (h : (logOf blocks).walletTxIndices[txId]? = some index) :
    (logOf (blocks ++ more)).walletTxIndices[txId]? = some index := by
  obtain ⟨new, hnew⟩ := (logOf_grown blocks more).walletTxIndices
  rw [hnew, List.getElem?_append_left (List.getElem?_eq_some_iff.mp h).1]
  exact h

theorem contiguous_earlier (h : Contiguous (logOf (blocks ++ more)).walletTxIndices) :
    Contiguous (logOf blocks).walletTxIndices :=
  ⟨fun i a ha => h.proper i a (index_later more ha),
    fun i a b ha hb => h.joined i a b (index_later more ha) (index_later more hb)⟩

theorem highestOf_mono {s₂ : Store} {ids₂ : Counters} (h : Run blocks s ids)
    (h₂ : Run (blocks ++ more) s₂ ids₂) (hcont : Contiguous (logOf (blocks ++ more)).walletTxIndices) :
    highestOf blocks ≤ highestOf (blocks ++ more) := by
  have hmono := targetOf_mono blocks more
  rcases Nat.eq_zero_or_pos (targetOf blocks) with hzero | hpos
  · rw [highestOf, if_pos hzero]
    exact Nat.zero_le _
  · obtain ⟨boundary, hget, hhigh⟩ := highestOf_pos h hpos
    obtain ⟨boundary₂, hget₂, hhigh₂⟩ := highestOf_pos h₂ (by omega)
    rw [hhigh, hhigh₂]
    exact hcont.end_le (by omega) (index_later more hget) hget₂

theorem highestOf_not_cut (h : Run blocks s ids)
    (hcont : Contiguous (logOf (blocks ++ more)).walletTxIndices) {txId : Nat}
    {index : WalletTxIndexRecord}
    (hindex : (logOf (blocks ++ more)).walletTxIndices[txId]? = some index) :
    ¬ (index.zswapStartIndex < highestOf blocks ∧ highestOf blocks < index.zswapEndIndex) := by
  rintro ⟨hlo, hhi⟩
  rcases Nat.eq_zero_or_pos (targetOf blocks) with hzero | hpos
  · rw [highestOf, if_pos hzero] at hlo
    cases hlo
  · obtain ⟨boundary, hget, hhigh⟩ := highestOf_pos h hpos
    have hget' := index_later more hget
    rw [hhigh] at hlo hhi
    rcases Nat.lt_or_ge (targetOf blocks - 1) txId with hlater | hearlier
    · have := hcont.le hlater hget' hindex
      omega
    · have := hcont.end_le hearlier hindex hget'
      omega

end Range

section Tiles

def nonempty (updates : List ShieldedSyncUpdate) : List Tile :=
  (updates.map tileOf).filter (fun t => t.lo < t.hi)

/-- The updates of a sync tile the index range from `fromIndex` on. -/
structure Tiled (libs : WalletLibs) (s : Store) (indices : List WalletTxIndexRecord)
    (viewingHash : ByteArr 32) (fromIndex : Nat) (result : ShieldedSyncResult) : Prop where
  covers : Covers fromIndex (nonempty result.updates) result.highestIndex
  gaps : ∀ lo hi, .gap lo hi ∈ result.updates.map tileOf → ∀ txId index,
    indices[txId]? = some index → Marked s viewingHash txId →
    index.zswapEndIndex ≤ lo ∨ hi ≤ index.zswapStartIndex
  entries : ∀ span, .entry span ∈ result.updates.map tileOf → Marked s viewingHash span.id ∧
    ∃ index, indices[span.id]? = some index ∧ span.lo = index.zswapStartIndex ∧
      span.hi = index.zswapEndIndex
  built : ∀ update ∈ result.updates, ∃ ledgerState, Loaded libs s ledgerState ∧
    Built libs ledgerState update
  applied : result.appliedThrough = result.highestIndex

theorem spansOf_le (h : Served libs blocks s ids) (hcont : Contiguous (logOf blocks).walletTxIndices)
    {boundary : WalletTxIndexRecord}
    (hget : (logOf blocks).walletTxIndices[targetOf blocks - 1]? = some boundary) :
    ∀ span ∈ spansOf s (logOf blocks).walletTxIndices viewingHash (targetOf blocks),
      span.hi ≤ boundary.zswapEndIndex := by
  intro span hs
  obtain ⟨-, hlt, index, hindex, -, hhi⟩ := (mem_spansOf h).mp hs
  rw [hhi]
  exact hcont.end_le (by omega) hindex hget

theorem sync_marked (h : Served libs blocks s ids) (hc : Consecutive blocks)
    (hkey : parseViewingKey libs key = .ok viewingKey)
    (hsync : walletShieldedSync libs s ⟨key, fromIndex⟩ = .ok (s', answer)) {txId : Nat}
    (hlt : txId < targetOf blocks) :
    Marked s' (libs.sha256 viewingKey.val) txId ↔ Found libs s viewingKey (targetOf blocks) txId := by
  have hlen := targetOf_le_indices h.run
  have hbound := h.run.holds.tables.txs.walletTxIndices.bound
  obtain ⟨viewingKey', hkey', hscan, -, -⟩ := walletShieldedSync_ok h hc hsync
  obtain rfl := Except.ok.inj (hkey.symm.trans hkey')
  exact scanWalletRelevance_marked hscan (by omega) (by omega)

theorem sync_applied (h : Served libs blocks s ids) (hc : Consecutive blocks)
    (hcont : Contiguous (logOf blocks).walletTxIndices)
    (hsync : walletShieldedSync libs s ⟨key, fromIndex⟩ = .ok (s', answer)) :
    answer.results.appliedThrough = highestOf blocks ∧
      answer.results.highestIndex = highestOf blocks := by
  obtain ⟨viewingKey, -, -, hserved, ⟨hzero, rfl⟩ | ⟨hpos, tip, hanswer⟩⟩ :=
    walletShieldedSync_ok h hc hsync
  · rw [highestOf, if_pos hzero]
    exact ⟨rfl, rfl⟩
  · have hle := targetOf_le_indices h.run
    obtain ⟨boundary, -, r, hget, -, hfrom, hwalk, -, happlied, hhighest, -, -⟩ :=
      syncUpdates_ok (fun txId hlt => walletTxIndexOf_eq hserved.run (by omega)) hpos hanswer
    obtain ⟨boundary', hget', hhigh⟩ := highestOf_pos h.run hpos
    obtain rfl := Option.some.inj (hget.symm.trans hget')
    have hclose := close_covers (spansOf_ordered hserved hcont) hwalk hfrom
      (spansOf_le hserved hcont hget)
    rw [happlied, hhighest, hhigh]
    exact ⟨hclose.2, rfl⟩

theorem sync_tiled (h : Served libs blocks s ids) (hc : Consecutive blocks)
    (hcont : Contiguous (logOf blocks).walletTxIndices)
    (hsync : walletShieldedSync libs s ⟨key, fromIndex⟩ = .ok (s', answer))
    (hle : fromIndex ≤ answer.results.highestIndex) :
    ∃ viewingKey, parseViewingKey libs key = .ok viewingKey ∧
      Tiled libs s' (logOf blocks).walletTxIndices (libs.sha256 viewingKey.val) fromIndex
        answer.results := by
  obtain ⟨happlied, hhighest⟩ := sync_applied h hc hcont hsync
  obtain ⟨viewingKey, hkey, -, hserved, ⟨hzero, rfl⟩ | ⟨hpos, tip, hanswer⟩⟩ :=
    walletShieldedSync_ok h hc hsync
  · refine ⟨viewingKey, hkey, ?_, by simp, by simp, by simp, rfl⟩
    obtain hz : fromIndex = 0 := Nat.le_zero.mp hle
    rw [hz]
    exact .nil 0
  · have hlen := targetOf_le_indices h.run
    obtain ⟨boundary, ledgerState, r, hget, hload, hfrom, hwalk, htiles, -, hhigh, -, hbuilt⟩ :=
      syncUpdates_ok (fun txId hlt => walletTxIndexOf_eq hserved.run (by omega)) hpos hanswer
    have hordered : Ordered (spansOf s' (logOf blocks).walletTxIndices
        (libs.sha256 viewingKey.val) (targetOf blocks)) := spansOf_ordered hserved hcont
    obtain ⟨hcovers, -⟩ := close_covers hordered hwalk hfrom (spansOf_le hserved hcont hget)
    rw [← htiles, ← hhigh] at hcovers
    refine ⟨viewingKey, hkey, hcovers.nonempty, ?_, ?_, ?_, happlied.trans hhighest.symm⟩
    · intro lo hi hgap txId index hindex hmarked
      rcases Nat.lt_or_ge txId (targetOf blocks) with hlt | hge
      · rw [htiles] at hgap
        exact close_gap hordered hwalk hgap ⟨txId, index.zswapStartIndex, index.zswapEndIndex⟩
          ((mem_spansOf hserved).mpr ⟨hmarked, hlt, index, hindex, rfl, rfl⟩)
      · -- a later transaction starts beyond the range
        have hend := hcovers.mem_le hgap
        have hstart := hcont.le (by omega : targetOf blocks - 1 < txId) hget hindex
        rw [hhigh] at hend
        exact .inr (Nat.le_trans hend hstart)
    · intro span hspan
      rw [htiles] at hspan
      obtain ⟨hm, -, hindex⟩ := (mem_spansOf hserved).mp (close_entry hwalk hspan)
      exact ⟨hm, hindex⟩
    · intro update hu
      exact ⟨ledgerState, hload, hbuilt update hu⟩

theorem sync_accepted (h : Served libs blocks s ids) (hc : Consecutive blocks)
    (hcont : Contiguous (logOf blocks).walletTxIndices) {e : ApiError}
    (hsync : walletShieldedSync libs s ⟨key, fromIndex⟩ = .error e)
    (hkey : parseViewingKey libs key = .ok viewingKey)
    (hle : fromIndex ≤ highestOf blocks)
    (hcut : ∀ txId index, txId < targetOf blocks → Found libs s viewingKey (targetOf blocks) txId →
      (logOf blocks).walletTxIndices[txId]? = some index →
      ¬ (index.zswapStartIndex < fromIndex ∧ fromIndex < index.zswapEndIndex)) :
    e.statusCode ≠ 400 := by
  obtain ⟨tip, htarget⟩ := syncTarget_at h.run hc
  have hbound := h.run.holds.tables.txs.walletTxIndices.bound
  have hlen := targetOf_le_indices h.run
  rw [walletShieldedSync, hkey] at hsync
  change syncTarget.at s >>= _ = _ at hsync
  rw [htarget] at hsync
  change internal (scanWalletRelevance libs s (libs.sha256 viewingKey.val) viewingKey
    (targetOf blocks)) >>= _ = _ at hsync
  cases hscan : scanWalletRelevance libs s (libs.sha256 viewingKey.val) viewingKey
      (targetOf blocks) with
  | error message =>
      rw [hscan] at hsync
      cases hsync
      exact (by decide : 500 ≠ 400)
  | ok s₁ =>
      rw [hscan] at hsync
      change (if targetOf blocks = 0 then _ else _) = _ at hsync
      have hserved := h.scanLoop (by rw [nextTxId_eq h.run]; exact hlen) hscan
      split at hsync
      · cases hsync
      · rename_i hpos
        obtain ⟨boundary, hget, hhigh⟩ := highestOf_pos h.run (Nat.pos_of_ne_zero hpos)
        have hwalk : ∃ r, walk fromIndex (spansOf s₁ (logOf blocks).walletTxIndices
            (libs.sha256 viewingKey.val) (targetOf blocks)) = some r := by
          apply walk_some (spansOf_ordered hserved hcont)
          intro span hspan hcuts
          obtain ⟨hm, hlt, index, hindex, hlo, hhi⟩ := (mem_spansOf hserved).mp hspan
          rw [Cuts, hlo, hhi] at hcuts
          exact hcut span.id index hlt
            ((scanWalletRelevance_marked hscan (by omega) (by omega)).mp hm) hindex hcuts
        have hblameless : Blameless (syncUpdates libs tip (targetOf blocks) fromIndex
            (libs.sha256 viewingKey.val)) s₁ := by
          refine syncUpdates_blameless (fun txId hlt => walletTxIndexOf_eq hserved.run (by omega))
            (Nat.pos_of_ne_zero hpos) ?_ hwalk
          intro boundary' hget'
          obtain rfl := Option.some.inj (hget.symm.trans hget')
          rwa [← hhigh]
        cases hanswer : (syncUpdates libs tip (targetOf blocks) fromIndex
            (libs.sha256 viewingKey.val)).at s₁ with
        | ok answer =>
            rw [hanswer] at hsync
            cases hsync
        | error e' =>
            rw [hanswer] at hsync
            cases hsync
            exact hblameless _ hanswer

/-- A sync tiles the index range from any index that cuts no relevant
transaction, and one at a later height resumes from where it ended. -/
theorem sync_tiles {s₁ s₂ : Store} {ids₁ ids₂ : Counters} (h₁ : Served libs blocks s₁ ids₁)
    (h₂ : Served libs (blocks ++ more) s₂ ids₂) (hc : Consecutive (blocks ++ more))
    (hcont : Contiguous (logOf (blocks ++ more)).walletTxIndices) (key : String) (fromIndex : Nat) :
    (∀ s' answer, walletShieldedSync libs s₁ ⟨key, fromIndex⟩ = .ok (s', answer) →
      fromIndex ≤ answer.results.highestIndex → ∃ viewingKey,
        parseViewingKey libs key = .ok viewingKey ∧ Tiled libs s' (logOf blocks).walletTxIndices
          (libs.sha256 viewingKey.val) fromIndex answer.results ∧
        ∀ txId, txId < targetOf blocks → (Marked s' (libs.sha256 viewingKey.val) txId ↔
          Found libs s₁ viewingKey (targetOf blocks) txId)) ∧
    (∀ viewingKey, parseViewingKey libs key = .ok viewingKey → fromIndex ≤ highestOf blocks →
      (∀ txId index, txId < targetOf blocks → Found libs s₁ viewingKey (targetOf blocks) txId →
        (logOf blocks).walletTxIndices[txId]? = some index →
        ¬ (index.zswapStartIndex < fromIndex ∧ fromIndex < index.zswapEndIndex)) →
      ∀ e, walletShieldedSync libs s₁ ⟨key, fromIndex⟩ = .error e → e.statusCode ≠ 400) ∧
    (∀ s' answer, walletShieldedSync libs s₁ ⟨key, fromIndex⟩ = .ok (s', answer) →
      (∀ e, walletShieldedSync libs s₂ ⟨key, answer.results.appliedThrough⟩ = .error e →
        e.statusCode ≠ 400) ∧
      ∀ s'' answer', walletShieldedSync libs s₂ ⟨key, answer.results.appliedThrough⟩ = .ok (s'', answer') →
        fromIndex ≤ answer.results.highestIndex →
        Covers fromIndex (nonempty (answer.results.updates ++ answer'.results.updates))
          answer'.results.highestIndex) := by
  have hc₁ : Consecutive blocks := hc.earlier
  have hcont₁ : Contiguous (logOf blocks).walletTxIndices := contiguous_earlier hcont
  refine ⟨?_, fun viewingKey hkey hle hcut e hsync =>
    sync_accepted h₁ hc₁ hcont₁ hsync hkey hle hcut, ?_⟩
  · intro s' answer hsync hle
    obtain ⟨viewingKey, hkey, htiled⟩ := sync_tiled h₁ hc₁ hcont₁ hsync hle
    exact ⟨viewingKey, hkey, htiled, fun txId hlt => sync_marked h₁ hc₁ hkey hsync hlt⟩
  intro s' answer hsync
  obtain ⟨happlied, hhighest⟩ := sync_applied h₁ hc₁ hcont₁ hsync
  have hmono := highestOf_mono h₁.run h₂.run hcont
  obtain ⟨viewingKey, hkey, -, -, -⟩ := walletShieldedSync_ok h₁ hc₁ hsync
  constructor
  · intro e hsync'
    refine sync_accepted h₂ hc hcont hsync' hkey ?_ ?_
    · rwa [happlied]
    · intro txId index _ _ hindex
      rw [happlied]
      exact highestOf_not_cut h₁.run hcont hindex
  · intro s'' answer' hsync' hle
    obtain ⟨_, -, htiled⟩ := sync_tiled h₁ hc₁ hcont₁ hsync hle
    obtain ⟨-, hhighest'⟩ := sync_applied h₂ hc hcont hsync'
    obtain ⟨_, -, htiled'⟩ := sync_tiled h₂ hc hcont hsync' (by rwa [happlied, hhighest'])
    rw [nonempty, List.map_append, List.filter_append]
    have hjoin : answer.results.appliedThrough = answer.results.highestIndex :=
      happlied.trans hhighest.symm
    exact htiled.covers.append (hjoin ▸ htiled'.covers)

end Tiles

section Samples

/-- Libraries for which every transaction is relevant to the one key. -/
def sampleLibs : WalletLibs where
  SecretKey := Unit
  Ledger := Unit
  hexDecode _ := some (List.replicate 32 1)
  sha256 _ := ⟨[114, 205, 110, 132, 34, 196, 7, 251, 109, 9, 134, 144, 241, 19, 11, 125, 237, 126,
    194, 247, 245, 225, 211, 11, 217, 213, 33, 240, 21, 54, 55, 147], rfl⟩
  deserializeKey _ := none
  keyRepr _ := .filled 32 0
  deserializeTransaction raw version := .ok (.standard version (some ⟨[some raw], []⟩) [])
  secretKeyFromRepr _ _ := some ()
  decrypt _ _ _ := true
  loadLedger _ _ := .ok ()
  zswapFirstFree _ := 2
  makeZswapCollapsedUpdate _ _ _ := .ok []

def sampleKey : String := "0101010101010101010101010101010101010101010101010101010101010101"

def sampleViewingKey : ByteArr 32 := .filled 32 1

theorem parseViewingKey_sample : parseViewingKey sampleLibs sampleKey = .ok sampleViewingKey := rfl

def zswapTransaction (zswapStartIndex zswapEndIndex : Nat) : AppliedTransaction :=
  { emptyTransaction with zswapStartIndex, zswapEndIndex, ledgerEvents := [zswapEvent] }

/-- An output at index 0, and a transaction that spends without adding one. -/
def outputThenSpend : List AppliedTransaction := [zswapTransaction 0 1, zswapTransaction 1 1]

def sampleBlocks : List DerivedBlock :=
  [⟨emptyBlock 0 zero_lt_u64, outputThenSpend,
    by simp [Derived, outputThenSpend, zswapTransaction, emptyTransaction]⟩]

def laterBlocks : List DerivedBlock :=
  [⟨emptyBlock 1 one_lt_u64, [zswapTransaction 1 2],
    by simp [Derived, zswapTransaction, emptyTransaction]⟩]

def sampleStore : Store × Counters :=
  (writeBlock fresh (emptyBlock 0 zero_lt_u64) outputThenSpend [] []
    (Counters.load fresh)).toOption.getD (fresh, Counters.load fresh)

def laterStore : Store × Counters :=
  (writeBlock sampleStore.1 (emptyBlock 1 one_lt_u64) [zswapTransaction 1 2] [] []
    sampleStore.2).toOption.getD sampleStore

theorem served_sample : Served sampleLibs sampleBlocks sampleStore.1 sampleStore.2 :=
  Served.start.step _ [] [] (by decide +kernel) (ok_of_toBool (by decide +kernel) (fresh, Counters.load fresh))

theorem served_later :
    Served sampleLibs (sampleBlocks ++ laterBlocks) laterStore.1 laterStore.2 :=
  served_sample.step _ [] [] (by decide +kernel) (ok_of_toBool (by decide +kernel) sampleStore)

theorem consecutive_later : Consecutive (sampleBlocks ++ laterBlocks) := by
  intro i d hd
  match i with
  | 0 => cases hd; rfl
  | 1 => cases hd; rfl
  | i + 2 => cases hd

theorem contiguous_later : Contiguous (logOf (sampleBlocks ++ laterBlocks)).walletTxIndices := by
  change Contiguous [⟨0, 1, 1000000⟩, ⟨1, 1, 1000000⟩, ⟨1, 2, 1000000⟩]
  constructor
  · intro i a ha
    match i with
    | 0 | 1 | 2 => cases ha; decide
    | i + 3 => cases ha
  · intro i a b ha hb
    match i with
    | 0 | 1 => cases ha; cases hb; rfl
    | 2 => cases hb
    | i + 3 => cases ha

end Samples

theorem sync_tiles_sample : ∃ s' answer s'' answer',
    walletShieldedSync sampleLibs sampleStore.1 ⟨sampleKey, 0⟩ = .ok (s', answer) ∧
    entryIds (answer.results.updates.map tileOf) = [0] ∧
    Marked s' (sampleLibs.sha256 sampleViewingKey.val) 0 ∧
    walletShieldedSync sampleLibs laterStore.1 ⟨sampleKey, answer.results.appliedThrough⟩ =
      .ok (s'', answer') ∧
    entryIds (answer'.results.updates.map tileOf) = [2] ∧
    Covers 0 (nonempty (answer.results.updates ++ answer'.results.updates))
      answer'.results.highestIndex := by
  obtain ⟨⟨s', answer⟩, hsync⟩ := exists_ok
    (x := walletShieldedSync sampleLibs sampleStore.1 ⟨sampleKey, 0⟩) (by decide +kernel)
  obtain ⟨⟨s'', answer'⟩, hsync'⟩ := exists_ok
    (x := walletShieldedSync sampleLibs laterStore.1 ⟨sampleKey, 1⟩) (by decide +kernel)
  obtain ⟨happlied, -⟩ := sync_applied served_sample consecutive_later.earlier
    (contiguous_earlier contiguous_later) hsync
  have hone : answer.results.appliedThrough = 1 := happlied
  have hsent : (walletShieldedSync sampleLibs sampleStore.1 ⟨sampleKey, 0⟩).map
      (fun r => entryIds (r.2.results.updates.map tileOf)) = .ok [0] := by decide +kernel
  have hsent' : (walletShieldedSync sampleLibs laterStore.1 ⟨sampleKey, 1⟩).map
      (fun r => entryIds (r.2.results.updates.map tileOf)) = .ok [2] := by decide +kernel
  rw [hsync] at hsent
  rw [hsync'] at hsent'
  rw [← hone] at hsync'
  obtain ⟨htiles, -, hresume⟩ := sync_tiles served_sample served_later consecutive_later
    contiguous_later sampleKey 0
  obtain ⟨viewingKey, hkey, -, hmarked⟩ := htiles s' answer hsync (Nat.zero_le _)
  obtain rfl := Except.ok.inj (parseViewingKey_sample.symm.trans hkey)
  have hfound : Found sampleLibs sampleStore.1 sampleViewingKey (targetOf sampleBlocks) 0 :=
    .inr ⟨Nat.zero_le _, by decide, by decide +kernel⟩
  exact ⟨s', answer, s'', answer', hsync, Except.ok.inj hsent, (hmarked 0 (by decide)).mpr hfound,
    hsync', Except.ok.inj hsent', (hresume s' answer hsync).2 s'' answer' hsync' (Nat.zero_le _)⟩

section Delivery

def transactionIds (updates : List ShieldedSyncUpdate) : List Nat := entryIds (updates.map tileOf)

def CarriesZswap (s : Store) (txId : Nat) : Prop :=
  ∃ eventId record, (s .ledgerEvents)[be 8 eventId]? = some record ∧ record.txId = txId ∧
    record.event.grouping = .zswap

/-- The transaction updates are, in ascending order, the marked transactions
below the target that carry a Zswap event. -/
def Delivers (s : Store) (viewingHash : ByteArr 32) (result : ShieldedSyncResult) : Prop :=
  (transactionIds result.updates).Pairwise (· < ·) ∧
    ∀ txId, txId ∈ transactionIds result.updates ↔
      txId < result.scannedTransactions ∧ Marked s viewingHash txId ∧ CarriesZswap s txId

/-- A relevant transaction ends beyond the start of the tree and beyond the
relevant transactions before it. -/
def Advances (libs : WalletLibs) (s : Store) (blocks : List DerivedBlock) (viewingKey : ByteArr 32)
    (txId : Nat) (index : WalletTxIndexRecord) : Prop :=
  0 < index.zswapEndIndex ∧ ∀ earlier index', earlier < txId →
    Found libs s viewingKey (targetOf blocks) earlier →
    (logOf blocks).walletTxIndices[earlier]? = some index' →
    index'.zswapEndIndex ≠ index.zswapEndIndex

theorem transactionIds_sorted (h : Served libs blocks s ids) {r : List Tile × Nat} {highest : Nat}
    {updates : List ShieldedSyncUpdate}
    (hwalk : walk fromIndex (spansOf s (logOf blocks).walletTxIndices viewingHash
      (targetOf blocks)) = some r)
    (htiles : updates.map tileOf = (close highest r).1) :
    transactionIds updates = entryIds r.1 ∧ (transactionIds updates).Pairwise (· < ·) := by
  have he : transactionIds updates = entryIds r.1 := by
    rw [transactionIds, htiles]
    exact close_entryIds _ _
  have hsub := walk_sublist hwalk
  have hmap : (spansOf s (logOf blocks).walletTxIndices viewingHash (targetOf blocks)).map Span.id =
      syncIds s viewingHash (targetOf blocks) := by
    show ((syncIds s viewingHash (targetOf blocks)).map _).map _ = _
    rw [List.map_map]
    exact List.map_id'' (fun txId => spanAt_id _ txId) _
  rw [hmap] at hsub
  exact ⟨he, he ▸ (syncIds_sorted h _).sublist hsub⟩

theorem mem_transactionIds (h : Served libs blocks s ids) (hc : Consecutive blocks)
    (hcont : Contiguous (logOf blocks).walletTxIndices) (hfrom : fromIndex = 0)
    (hkey : parseViewingKey libs key = .ok viewingKey)
    (hsync : walletShieldedSync libs s ⟨key, fromIndex⟩ = .ok (s', answer)) :
    (transactionIds answer.results.updates).Pairwise (· < ·) ∧
      answer.results.scannedTransactions = targetOf blocks ∧ ∀ txId,
      txId ∈ transactionIds answer.results.updates ↔
        txId < targetOf blocks ∧ Found libs s viewingKey (targetOf blocks) txId ∧
        ∀ index, (logOf blocks).walletTxIndices[txId]? = some index →
          Advances libs s blocks viewingKey txId index := by
  have hlen := targetOf_le_indices h.run
  have hbound := h.run.holds.tables.txs.walletTxIndices.bound
  obtain ⟨viewingKey', hkey', hscan, hserved, ⟨hzero, rfl⟩ | ⟨hpos, tip, hanswer⟩⟩ :=
    walletShieldedSync_ok h hc hsync
  · refine ⟨List.Pairwise.nil, hzero.symm, fun txId => iff_of_false List.not_mem_nil ?_⟩
    rintro ⟨hlt, -⟩
    omega
  · obtain rfl := Except.ok.inj (hkey.symm.trans hkey')
    have hmarked : ∀ txId, txId < targetOf blocks → (Marked s' (libs.sha256 viewingKey.val) txId ↔
        Found libs s viewingKey (targetOf blocks) txId) :=
      fun txId hlt => sync_marked h hc hkey hsync hlt
    obtain ⟨boundary, ledgerState, r, hget, -, -, hwalk, htiles, -, -, hscanned, -⟩ :=
      syncUpdates_ok (fun txId hlt => walletTxIndexOf_eq hserved.run (by omega)) hpos hanswer
    have hordered : Ordered (spansOf s' (logOf blocks).walletTxIndices
        (libs.sha256 viewingKey.val) (targetOf blocks)) := spansOf_ordered hserved hcont
    obtain ⟨he, hsorted⟩ := transactionIds_sorted hserved hwalk htiles
    refine ⟨hsorted, hscanned, fun txId => ?_⟩
    rw [he]
    constructor
    · intro hmem
      obtain ⟨span, hspan, rfl⟩ := List.mem_map.mp ((walk_sublist hwalk).subset hmem)
      obtain ⟨hm, hlt, index, hindex, -, hhi⟩ := (mem_spansOf hserved).mp hspan
      obtain ⟨hend, hall⟩ := (mem_entryIds hordered hwalk hspan).mp hmem
      refine ⟨hlt, (hmarked _ hlt).mp hm, fun index' hindex' => ?_⟩
      obtain rfl := Option.some.inj (hindex.symm.trans hindex')
      refine ⟨by omega, fun earlier e hlt' hf he' => ?_⟩
      have ht := hall ⟨earlier, e.zswapStartIndex, e.zswapEndIndex⟩
        ((mem_spansOf hserved).mpr ⟨(hmarked earlier (by omega)).mpr hf, by simp only; omega, e, he',
          rfl, rfl⟩) hlt'
      rwa [hhi] at ht
    · rintro ⟨hlt, hf, hadvances⟩
      have hindex := List.getElem?_eq_getElem (Nat.lt_of_lt_of_le hlt hlen)
      obtain ⟨hend, hall⟩ := hadvances _ hindex
      have hspan : ⟨txId, _, _⟩ ∈ spansOf s' (logOf blocks).walletTxIndices
          (libs.sha256 viewingKey.val) (targetOf blocks) :=
        (mem_spansOf hserved).mpr ⟨(hmarked txId hlt).mpr hf, hlt, _, hindex, rfl, rfl⟩
      refine (mem_entryIds hordered hwalk hspan).mpr ⟨by rw [hfrom]; exact hend, ?_⟩
      intro t ht hid
      obtain ⟨hm, hlt', e, he', -, hhi⟩ := (mem_spansOf hserved).mp ht
      rw [hhi]
      exact hall t.id e hid ((hmarked _ hlt').mp hm) he'

/-- A sync from the start delivers every relevant transaction with a Zswap event
exactly when those are the relevant transactions that advance. -/
theorem sync_delivers_iff (h : Served libs blocks s ids) (hc : Consecutive blocks)
    (hcont : Contiguous (logOf blocks).walletTxIndices) (hfrom : fromIndex = 0)
    (hkey : parseViewingKey libs key = .ok viewingKey)
    (hsync : walletShieldedSync libs s ⟨key, fromIndex⟩ = .ok (s', answer)) :
    Delivers s' (libs.sha256 viewingKey.val) answer.results ↔
      ∀ txId index, txId < targetOf blocks → Found libs s viewingKey (targetOf blocks) txId →
        (logOf blocks).walletTxIndices[txId]? = some index →
        (CarriesZswap s txId ↔ Advances libs s blocks viewingKey txId index) := by
  have hlen := targetOf_le_indices h.run
  obtain ⟨hsorted, hscanned, hmem⟩ := mem_transactionIds h hc hcont hfrom hkey hsync
  obtain ⟨viewingKey', hkey', hscan, -, -⟩ := walletShieldedSync_ok h hc hsync
  obtain rfl := Except.ok.inj (hkey.symm.trans hkey')
  have hmarked : ∀ txId, txId < targetOf blocks → (Marked s' (libs.sha256 viewingKey.val) txId ↔
      Found libs s viewingKey (targetOf blocks) txId) :=
    fun txId hlt => sync_marked h hc hkey hsync hlt
  have hevents : ∀ txId, CarriesZswap s' txId ↔ CarriesZswap s txId := by
    intro txId
    rw [CarriesZswap, scanWalletRelevance_frame hscan .ledgerEvents (by decide), CarriesZswap]
  rw [Delivers, hscanned]
  constructor
  · rintro ⟨-, hall⟩ txId index hlt hf hindex
    have hiff := (hmem txId).symm.trans (hall txId)
    rw [hmarked txId hlt, hevents] at hiff
    constructor
    · intro hz
      exact (hiff.mpr ⟨hlt, hf, hz⟩).2.2 index hindex
    · intro hadvances
      refine (hiff.mp ⟨hlt, hf, fun index' hindex' => ?_⟩).2.2
      obtain rfl := Option.some.inj (hindex.symm.trans hindex')
      exact hadvances
  · intro hall
    refine ⟨hsorted, fun txId => (hmem txId).trans ?_⟩
    constructor
    · rintro ⟨hlt, hf, hadvances⟩
      have hindex := List.getElem?_eq_getElem (Nat.lt_of_lt_of_le hlt hlen)
      exact ⟨hlt, (hmarked txId hlt).mpr hf,
        (hevents txId).mpr ((hall txId _ hlt hf hindex).mpr (hadvances _ hindex))⟩
    · rintro ⟨hlt, hm, hz⟩
      have hf := (hmarked txId hlt).mp hm
      exact ⟨hlt, hf, fun index hindex => (hall txId index hlt hf hindex).mp ((hevents txId).mp hz)⟩

theorem sync_delivers_iff_sample : ∃ s' answer,
    walletShieldedSync sampleLibs sampleStore.1 ⟨sampleKey, 0⟩ = .ok (s', answer) ∧
    (Delivers s' (sampleLibs.sha256 sampleViewingKey.val) answer.results ↔
      ∀ txId index, txId < targetOf sampleBlocks →
        Found sampleLibs sampleStore.1 sampleViewingKey (targetOf sampleBlocks) txId →
        (logOf sampleBlocks).walletTxIndices[txId]? = some index →
        (CarriesZswap sampleStore.1 txId ↔
          Advances sampleLibs sampleStore.1 sampleBlocks sampleViewingKey txId index)) := by
  obtain ⟨⟨s', answer⟩, hsync⟩ := exists_ok
    (x := walletShieldedSync sampleLibs sampleStore.1 ⟨sampleKey, 0⟩) (by decide +kernel)
  exact ⟨s', answer, hsync, sync_delivers_iff served_sample consecutive_later.earlier
    (contiguous_earlier contiguous_later) rfl parseViewingKey_sample hsync⟩

/-- The spend adds no output, so its range is empty at the index where the sync
already stands, and it is passed over. -/
theorem sync_loses_spend : ∃ s ids s' answer,
    Served sampleLibs sampleBlocks s ids ∧ Consecutive sampleBlocks ∧
    Contiguous (logOf sampleBlocks).walletTxIndices ∧
    walletShieldedSync sampleLibs s ⟨sampleKey, 0⟩ = .ok (s', answer) ∧
    ¬ Delivers s' (sampleLibs.sha256 sampleViewingKey.val) answer.results := by
  obtain ⟨⟨s', answer⟩, hsync⟩ := exists_ok
    (x := walletShieldedSync sampleLibs sampleStore.1 ⟨sampleKey, 0⟩) (by decide +kernel)
  refine ⟨_, _, s', answer, served_sample, consecutive_later.earlier,
    contiguous_earlier contiguous_later, hsync, ?_⟩
  have hsent : (walletShieldedSync sampleLibs sampleStore.1 ⟨sampleKey, 0⟩).map
      (fun r => (transactionIds r.2.results.updates, r.2.results.scannedTransactions)) =
        .ok ([0], 2) := by decide +kernel
  have hmarked : (walletShieldedSync sampleLibs sampleStore.1 ⟨sampleKey, 0⟩).map (fun r => decide
      (walletRelevanceKey (sampleLibs.sha256 sampleViewingKey.val) 1 ∈ r.1 .walletRelevantTxs)) =
        .ok true := by decide +kernel
  have hevent : (walletShieldedSync sampleLibs sampleStore.1 ⟨sampleKey, 0⟩).map
      (fun r => (r.1 .ledgerEvents)[be 8 1]?) = .ok (some ⟨zswapEvent, 1, 0⟩) := by decide +kernel
  rw [hsync] at hsent hmarked hevent
  obtain ⟨hids, hscanned⟩ := Prod.mk.inj (Except.ok.inj hsent)
  rintro ⟨-, hall⟩
  have hmember : walletRelevanceKey (sampleLibs.sha256 sampleViewingKey.val) 1 ∈
      s' .walletRelevantTxs := of_decide_eq_true (Except.ok.inj hmarked)
  have hone := (hall 1).mpr ⟨by rw [hscanned]; decide, hmember, 1, _, Except.ok.inj hevent, rfl, rfl⟩
  rw [hids] at hone
  revert hone
  decide

end Delivery

end Nightfrost.SyncDelivery
