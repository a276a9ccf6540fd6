import Nightfrost.SyncTiles

namespace Nightfrost.SyncAnswer

open ByteOrder Tables Partitions Domain Schema WriteBlock MovingStore Api ExceptFold EntityLog
  BlockStep BlockRun ShieldedSync ServedStore Tiling SyncTiles

variable {libs : WalletLibs} {blocks more : List DerivedBlock} {s s' : Store} {ids : Counters}

section Target

/-- The transactions up to and including the last block. -/
def targetOf (blocks : List DerivedBlock) : Nat :=
  match (logOf blocks).blocks.getLast? with
  | none => 0
  | some record => record.firstTxId + record.txCount

theorem targetOf_le (blocks : List DerivedBlock) : targetOf blocks ≤ (logOf blocks).txs.length := by
  rw [targetOf]
  split
  · exact Nat.zero_le _
  · rename_i record hlast
    exact logOf_block_bound blocks record (List.mem_of_getLast? hlast)

theorem targetOf_mono (blocks more : List DerivedBlock) :
    targetOf blocks ≤ targetOf (blocks ++ more) := by
  induction more using List.reverseRecOn with
  | nil => rw [List.append_nil]
  | append_singleton more d ih =>
      have hle := targetOf_le (blocks ++ more)
      have hpush : targetOf (blocks ++ (more ++ [d])) =
          (logOf (blocks ++ more)).txs.length + d.transactions.length % 2 ^ 32 := by
        rw [← List.append_assoc, targetOf, logOf_push, ChainLog.addBlock, List.getLast?_concat]
        rfl
      omega

theorem currentTip_at (h : Run blocks s ids) (hc : Consecutive blocks) :
    (blocks = [] ∧ currentTip.at s = .ok none) ∨ ∃ record,
      (logOf blocks).blocks.getLast? = some record ∧
      Schema.block s (blocks.length - 1) = some record ∧
      currentTip.at s = .ok (some ⟨blocks.length - 1, record.hash⟩) := by
  obtain ⟨hrecords, hlast, -, -⟩ := h.cursor hc
  rcases List.eq_nil_or_concat blocks with rfl | ⟨front, d, rfl⟩
  · refine .inl ⟨rfl, ?_⟩
    rw [currentTip, at_query_bind, hlast]
    rfl
  · rw [List.concat_eq_append] at *
    have hheight : d.block.height = (front ++ [d]).length - 1 := by
      rw [hc.of_push.2, List.length_append, List.length_singleton, Nat.add_sub_cancel]
    obtain ⟨record, hrecord⟩ : ∃ record, (logOf (front ++ [d])).blocks.getLast? = some record := by
      rw [logOf_push, ChainLog.addBlock, List.getLast?_concat]
      exact ⟨_, rfl⟩
    have hblock : Schema.block s ((front ++ [d]).length - 1) = some record := by
      have hlen := logOf_blocks_length (front ++ [d])
      have hbound := hrecords.bound
      have hpos : 0 < (front ++ [d]).length := by simp
      rw [Schema.block, hrecords.get _ (by omega), ← hlen, ← List.getLast?_eq_getElem?, hrecord]
    refine .inr ⟨record, hrecord, hblock, ?_⟩
    rw [currentTip, at_query_bind, hlast, List.getLast?_concat, Option.map_some, hheight]
    change (match Schema.block s ((front ++ [d]).length - 1) with
      | none => _
      | some block => _ : Handler _).at s = _
    rw [hblock]
    rfl

theorem syncTarget_at (h : Run blocks s ids) (hc : Consecutive blocks) :
    ∃ tip, syncTarget.at s = .ok (tip, targetOf blocks) := by
  rw [syncTarget, at_bind]
  rcases currentTip_at h hc with ⟨rfl, htip⟩ | ⟨record, hlast, hblock, htip⟩
  · rw [htip]
    exact ⟨none, rfl⟩
  · rw [htip]
    refine ⟨some ⟨blocks.length - 1, record.hash⟩, ?_⟩
    change (match Schema.block s (blocks.length - 1) with | none => _ | some block => _ : Handler _).at s = _
    rw [hblock, targetOf, hlast]
    rfl

end Target

section Accepted

variable {α β : Type}

/-- The request is not to blame for a failure. -/
def Blameless (x : Handler α) (s : Store) : Prop := ∀ e, x.at s = .error e → e.statusCode ≠ 400

theorem Blameless.pure (a : α) : Blameless (pure a) s := by
  intro e he
  cases he

theorem Blameless.internal (message : String) : Blameless (.fail (.internal message) : Handler α) s := by
  intro e he
  cases he
  exact (by decide : 500 ≠ 400)

theorem Blameless.liftInternal (x : Except String α) : Blameless (liftExcept (ShieldedSync.internal x)) s := by
  cases x with
  | ok a => exact .pure a
  | error message => exact .internal message

theorem Blameless.bind {x : Handler α} {f : α → Handler β} (hx : Blameless x s)
    (hf : ∀ a, x.at s = .ok a → Blameless (f a) s) : Blameless (x >>= f) s := by
  intro e he
  rw [at_bind] at he
  cases hxs : x.at s with
  | error e' =>
      rw [hxs] at he
      cases he
      exact hx _ hxs
  | ok a =>
      rw [hxs] at he
      exact hf a hxs e he

theorem Blameless.read {f : Store → α} {g : α → Handler β} (h : Blameless (g (f s)) s) :
    Blameless (query f >>= g) s := h

theorem eventResponse_blameless (id : Nat) (record : EventRecord) :
    Blameless (EventResponse.new id record) s := by
  refine .read ?_
  cases Schema.block s record.blockHeight with
  | none => exact .internal _
  | some found => exact .pure _

theorem zswapEvents_blameless (eventIds : List Nat) : Blameless (zswapEvents eventIds) s := by
  induction eventIds with
  | nil => exact .pure _
  | cons eventId eventIds ih =>
      refine .read ?_
      cases (s .ledgerEvents)[be 8 eventId]? with
      | none => exact .internal _
      | some record =>
          dsimp only
          split
          · refine (eventResponse_blameless eventId record).bind fun event _ => ?_
            exact ih.bind fun events _ => .pure _
          · exact ih

theorem transactionUpdate_blameless (txId : Nat) (index : WalletTxIndexRecord) :
    Blameless (transactionUpdate txId index) s := by
  refine .read ?_
  cases tx s txId with
  | none => exact .internal _
  | some record => exact (zswapEvents_blameless _).bind fun events _ => .pure _

theorem collapsedUpdate_blameless (ledgerState : libs.Ledger) (protocolVersion lo hi : Nat) :
    Blameless (collapsedUpdate libs ledgerState protocolVersion lo hi) s := by
  rw [collapsedUpdate]
  split
  · exact (Blameless.liftInternal _).bind fun update _ => .pure _
  · exact .pure _

theorem updateLoop_blameless {ledgerState : libs.Ledger} {protocolVersion targetTx boundary : Nat}
    {indices : List WalletTxIndexRecord} {keys : List Bytes} {updates : List ShieldedSyncUpdate}
    {r : List Tile × Nat} (hindex : ∀ txId < targetTx, walletTxIndexOf s txId = indices[txId]?)
    (hr : walk boundary (spansBelow indices targetTx keys) = some r) :
    Blameless (updateLoop libs ledgerState protocolVersion targetTx keys updates boundary) s := by
  induction keys generalizing updates boundary r with
  | nil => exact .pure _
  | cons key keys ih =>
      rw [updateLoop]
      by_cases htarget : keyU64Suffix key ≥ targetTx
      · simp only [if_pos htarget]
        exact .pure _
      · simp only [if_neg htarget]
        have hlt := Nat.lt_of_not_le htarget
        rw [spansBelow_cons hlt] at hr
        refine .read ?_
        rw [hindex _ hlt]
        cases hget : indices[keyU64Suffix key]? with
        | none => exact .internal _
        | some index =>
            rw [spanAt_of hget, walk] at hr
            dsimp only
            split
            · rename_i hskip
              rw [if_pos hskip] at hr
              exact ih hr
            · rename_i hskip
              rw [if_neg hskip] at hr
              split
              · rename_i hcut
                rw [if_pos hcut] at hr
                cases hr
              · rename_i hcut
                rw [if_neg hcut] at hr
                obtain ⟨rest, hrest, -⟩ := Option.map_eq_some_iff.mp hr
                refine (collapsedUpdate_blameless _ _ _ _).bind fun gap _ => ?_
                refine (transactionUpdate_blameless _ _).bind fun update _ => ?_
                exact ih hrest

end Accepted

section Updates

variable {indices : List WalletTxIndexRecord} {viewingHash : ByteArr 32} {tip : Option TipAnchor}
  {targetTx fromIndex : Nat}

def spansOf (s : Store) (indices : List WalletTxIndexRecord) (viewingHash : ByteArr 32)
    (targetTx : Nat) : List Span :=
  spansBelow indices targetTx (relevanceKeys s viewingHash)

def Loaded (libs : WalletLibs) (s : Store) (ledgerState : libs.Ledger) : Prop :=
  ∃ ledgerKey ledgerVersion, (ledgerStateWindow s).getLast? = some (ledgerKey, ledgerVersion) ∧
    libs.loadLedger ledgerKey ledgerVersion = .ok ledgerState

theorem syncUpdates_ok {answer : PointResponse ShieldedSyncResult}
    (hindex : ∀ txId < targetTx, walletTxIndexOf s txId = indices[txId]?) (hpos : 0 < targetTx)
    (h : (syncUpdates libs tip targetTx fromIndex viewingHash).at s = .ok answer) :
    ∃ boundary ledgerState r, indices[targetTx - 1]? = some boundary ∧ Loaded libs s ledgerState ∧
      fromIndex ≤ boundary.zswapEndIndex ∧
      walk fromIndex (spansOf s indices viewingHash targetTx) = some r ∧
      answer.results.updates.map tileOf = (close boundary.zswapEndIndex r).1 ∧
      answer.results.appliedThrough = (close boundary.zswapEndIndex r).2 ∧
      answer.results.highestIndex = boundary.zswapEndIndex ∧
      answer.results.scannedTransactions = targetTx ∧
      ∀ update ∈ answer.results.updates, Built libs ledgerState update := by
  rw [syncUpdates, at_query_bind, hindex _ (by omega)] at h
  cases hboundary : indices[targetTx - 1]? with
  | none => rw [hboundary] at h; cases h
  | some boundary =>
      rw [hboundary] at h
      change (query _ >>= _ : Handler _).at s = _ at h
      rw [at_query_bind] at h
      cases hlast : (ledgerStateWindow s).getLast? with
      | none => rw [hlast] at h; cases h
      | some entry =>
          obtain ⟨ledgerKey, ledgerVersion⟩ := entry
          rw [hlast] at h
          change (liftExcept _ >>= _ : Handler _).at s = _ at h
          rw [at_bind, bind_ok] at h
          obtain ⟨ledgerState, hload, h⟩ := h
          rw [at_liftExcept, internal_ok] at hload
          split at h
          · cases h
          · split at h
            · cases h
            · rename_i hfrom
              rw [at_query_bind] at h
              cases hblock : tip.bind (fun tip => Schema.block s tip.height) with
              | none => rw [hblock] at h; cases h
              | some block =>
                  rw [hblock] at h
                  change (query _ >>= _ : Handler _).at s = _ at h
                  rw [at_query_bind] at h
                  change (updateLoop _ _ _ _ (relevanceKeys s viewingHash) _ _ >>= _ :
                    Handler _).at s = _ at h
                  rw [at_bind, bind_ok] at h
                  obtain ⟨⟨updates, last⟩, hloop, h⟩ := h
                  obtain ⟨new, hnew, hwalk, hbuilt⟩ := updateLoop_ok hindex hloop
                  rw [List.nil_append] at hnew
                  change (collapsedUpdate _ _ _ last boundary.zswapEndIndex >>= _ :
                    Handler _).at s = _ at h
                  rw [at_bind, bind_ok] at h
                  obtain ⟨gap, hgap, h⟩ := h
                  obtain ⟨htile, hgapBuilt⟩ := collapsedUpdate_ok hgap
                  obtain rfl := Except.ok.inj h
                  refine ⟨boundary, ledgerState, _, rfl, ⟨_, _, hlast, hload⟩,
                    Nat.le_of_not_lt hfrom, hwalk, ?_, ?_, rfl, rfl, ?_⟩
                  · show (updates ++ gap).map tileOf = _
                    rw [hnew, List.map_append, htile, close]
                    split
                    · rfl
                    · rw [List.append_nil]
                  · show (if last < boundary.zswapEndIndex then _ else _) = _
                    rw [close]
                    split <;> rfl
                  · intro update hmem
                    rcases List.mem_append.mp hmem with hu | hu
                    · exact hbuilt update (hnew ▸ hu)
                    · exact hgapBuilt update hu

theorem syncUpdates_blameless
    (hindex : ∀ txId < targetTx, walletTxIndexOf s txId = indices[txId]?) (hpos : 0 < targetTx)
    (hfrom : ∀ boundary, indices[targetTx - 1]? = some boundary → fromIndex ≤ boundary.zswapEndIndex)
    (hwalk : ∃ r, walk fromIndex (spansOf s indices viewingHash targetTx) = some r) :
    Blameless (syncUpdates libs tip targetTx fromIndex viewingHash) s := by
  obtain ⟨r, hr⟩ := hwalk
  refine .read ?_
  rw [hindex _ (by omega)]
  cases hboundary : indices[targetTx - 1]? with
  | none => exact .internal _
  | some boundary =>
      refine .read ?_
      cases (ledgerStateWindow s).getLast? with
      | none => exact .internal _
      | some entry =>
          refine (Blameless.liftInternal _).bind fun ledgerState _ => ?_
          have hle := hfrom boundary hboundary
          dsimp only
          rw [if_neg (Nat.not_lt.mpr hle)]
          split
          · exact .internal _
          · refine .read ?_
            cases tip.bind (fun tip => Schema.block s tip.height) with
            | none => exact .internal _
            | some block =>
                refine .read ?_
                refine (updateLoop_blameless hindex hr).bind fun loop _ => ?_
                exact (collapsedUpdate_blameless _ _ _ _).bind fun gap _ => .pure _

end Updates

section Served

variable {viewingHash viewingKey : ByteArr 32} {targetTx : Nat} {request : ShieldedSyncRequest}
  {answer : PointResponse ShieldedSyncResult}

theorem mem_takeWhile_lt {xs : List Nat} (h : xs.Pairwise (· < ·)) (n a : Nat) :
    a ∈ xs.takeWhile (· < n) ↔ a ∈ xs ∧ a < n := by
  induction xs with
  | nil => simp
  | cons x xs ih =>
      have hx := (List.pairwise_cons.mp h).1
      by_cases hlt : x < n
      · rw [List.takeWhile_cons_of_pos (by simpa using hlt), List.mem_cons, List.mem_cons, ih h.of_cons]
        constructor
        · rintro (rfl | ⟨hm, ha⟩)
          · exact ⟨.inl rfl, hlt⟩
          · exact ⟨.inr hm, ha⟩
        · rintro ⟨rfl | hm, ha⟩
          · exact .inl rfl
          · exact .inr ⟨hm, ha⟩
      · rw [List.takeWhile_cons_of_neg (by simpa using hlt)]
        apply iff_of_false List.not_mem_nil
        rintro ⟨hm, ha⟩
        rcases List.mem_cons.mp hm with rfl | hm
        · exact hlt ha
        · have := hx a hm
          omega

def syncIds (s : Store) (viewingHash : ByteArr 32) (targetTx : Nat) : List Nat :=
  (relevantIds s viewingHash).takeWhile (· < targetTx)

theorem nextTxId_eq (h : Run blocks s ids) : ids.nextTxId = (logOf blocks).walletTxIndices.length := by
  rw [h.holds.counters, h.holds.tables.txs.sameLength]
  rfl

theorem targetOf_le_indices (h : Run blocks s ids) :
    targetOf blocks ≤ (logOf blocks).walletTxIndices.length := by
  rw [h.holds.tables.txs.sameLength]
  exact targetOf_le blocks

theorem walletTxIndexOf_eq (h : Run blocks s ids) {txId : Nat}
    (hlt : txId < (logOf blocks).walletTxIndices.length) :
    walletTxIndexOf s txId = (logOf blocks).walletTxIndices[txId]? := by
  have hb := h.holds.tables.txs.walletTxIndices.bound
  exact h.holds.tables.txs.walletTxIndices.get txId (by omega)

theorem mem_syncIds (h : Served libs blocks s ids) {txId : Nat} :
    txId ∈ syncIds s viewingHash (targetOf blocks) ↔ txId < targetOf blocks ∧ Marked s viewingHash txId := by
  have hids := nextTxId_eq h.run
  have hb := h.run.holds.tables.txs.walletTxIndices.bound
  have hle := targetOf_le_indices h.run
  rw [syncIds, mem_takeWhile_lt (relevantIds_sorted h.wallets (by omega)),
    mem_relevantIds h.wallets (by omega)]
  constructor
  · rintro ⟨⟨-, hm⟩, hlt⟩
    exact ⟨hlt, hm⟩
  · rintro ⟨hlt, hm⟩
    exact ⟨⟨by omega, hm⟩, hlt⟩

theorem syncIds_sorted (h : Served libs blocks s ids) (targetTx : Nat) :
    (syncIds s viewingHash targetTx).Pairwise (· < ·) := by
  have hids := nextTxId_eq h.run
  have hb := h.run.holds.tables.txs.walletTxIndices.bound
  exact (relevantIds_sorted h.wallets (by omega)).sublist (List.takeWhile_sublist _)

theorem mem_spansOf (h : Served libs blocks s ids) {span : Span} :
    span ∈ spansOf s (logOf blocks).walletTxIndices viewingHash (targetOf blocks) ↔
      Marked s viewingHash span.id ∧ span.id < targetOf blocks ∧ ∃ index,
        (logOf blocks).walletTxIndices[span.id]? = some index ∧ span.lo = index.zswapStartIndex ∧
          span.hi = index.zswapEndIndex := by
  have hle := targetOf_le_indices h.run
  show span ∈ (syncIds s viewingHash (targetOf blocks)).map _ ↔ _
  rw [List.mem_map]
  constructor
  · rintro ⟨txId, hm, rfl⟩
    obtain ⟨hlt, hm⟩ := (mem_syncIds h).mp hm
    have hget := List.getElem?_eq_getElem (Nat.lt_of_lt_of_le hlt hle)
    rw [spanAt_id, spanAt_of hget]
    exact ⟨hm, hlt, _, hget, rfl, rfl⟩
  · rintro ⟨hm, hlt, index, hget, hlo, hhi⟩
    refine ⟨span.id, (mem_syncIds h).mpr ⟨hlt, hm⟩, ?_⟩
    rw [spanAt_of hget, ← hlo, ← hhi]

theorem spansOf_ordered (h : Served libs blocks s ids)
    (hcont : Contiguous (logOf blocks).walletTxIndices) :
    Ordered (spansOf s (logOf blocks).walletTxIndices viewingHash (targetOf blocks)) := by
  have hle := targetOf_le_indices h.run
  apply ordered_spans hcont (syncIds_sorted h (targetOf blocks))
  intro txId hm
  have := ((mem_syncIds h).mp hm).1
  omega

theorem walletShieldedSync_ok (h : Served libs blocks s ids) (hc : Consecutive blocks)
    (hsync : walletShieldedSync libs s request = .ok (s', answer)) :
    ∃ viewingKey, parseViewingKey libs request.viewingKey = .ok viewingKey ∧
      scanWalletRelevance libs s (libs.sha256 viewingKey.val) viewingKey (targetOf blocks) = .ok s' ∧
      Served libs blocks s' ids ∧
      (targetOf blocks = 0 ∧ answer = ⟨⟨[], 0, 0, 0⟩, none⟩ ∨ 0 < targetOf blocks ∧ ∃ tip,
        (syncUpdates libs tip (targetOf blocks) request.fromIndex (libs.sha256 viewingKey.val)).at s' =
          .ok answer) := by
  obtain ⟨tip, htarget⟩ := syncTarget_at h.run hc
  rw [walletShieldedSync] at hsync
  obtain ⟨viewingKey, hkey, hsync⟩ := bind_ok.mp hsync
  obtain ⟨_, hread, hsync⟩ := bind_ok.mp hsync
  obtain rfl := Except.ok.inj (htarget.symm.trans hread)
  obtain ⟨s₁, hscan, hsync⟩ := bind_ok.mp hsync
  rw [internal_ok] at hscan
  have hle : targetOf blocks ≤ ids.nextTxId := by
    rw [nextTxId_eq h.run]
    exact targetOf_le_indices h.run
  have hserved := h.scanLoop hle hscan
  split at hsync
  · rename_i hzero
    obtain ⟨rfl, rfl⟩ := Prod.mk.inj (Except.ok.inj hsync)
    exact ⟨viewingKey, hkey, hscan, hserved, .inl ⟨hzero, rfl⟩⟩
  · rename_i hpos
    obtain ⟨answer', hanswer, hsync⟩ := bind_ok.mp hsync
    obtain ⟨rfl, rfl⟩ := Prod.mk.inj (Except.ok.inj hsync)
    exact ⟨viewingKey, hkey, hscan, hserved, .inr ⟨Nat.pos_of_ne_zero hpos, tip, hanswer⟩⟩

end Served

end Nightfrost.SyncAnswer
