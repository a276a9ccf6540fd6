import Nightfrost.ShieldedSync

namespace Nightfrost.ServedStore

open ByteOrder Tables Partitions Domain Schema WriteBlock Staging MovingStore Api ExceptFold EntityLog
  BlockStep BlockRun ShieldedSync

variable {libs : WalletLibs}

/-- A store written by the pipeline, with the marks of the scans that the API
has made for its wallets. -/
inductive Served (libs : WalletLibs) : List DerivedBlock → Store → Counters → Prop
  | start : Served libs [] fresh (Counters.load fresh)
  | step {blocks : List DerivedBlock} {s s' : Store} {ids ids' : Counters} (d : DerivedBlock)
      (ledgerStateKey : Bytes) (window : LedgerStateWindow) (h : Served libs blocks s ids)
      (hroom : Room ids d.transactions)
      (hblock : writeBlock s d.block d.transactions ledgerStateKey window ids = .ok (s', ids')) :
      Served libs (blocks ++ [d]) s' ids'
  | scan {blocks : List DerivedBlock} {s s' : Store} {ids : Counters} (viewingKey : ByteArr 32)
      (batchEnd : Nat) (h : Served libs blocks s ids) (hend : batchEnd ≤ ids.nextTxId)
      (hscan : scanBatch libs s (libs.sha256 viewingKey.val) viewingKey
        (scanProgress s (libs.sha256 viewingKey.val)) batchEnd = .ok s') : Served libs blocks s' ids

def Marked (s : Store) (viewingHash : ByteArr 32) (txId : Nat) : Prop :=
  walletRelevanceKey viewingHash txId ∈ s .walletRelevantTxs

section Scan

variable {s s' : Store} {viewingHash viewingKey : ByteArr 32} {scanned batchEnd : Nat}

theorem scanBatch_ok (h : scanBatch libs s viewingHash viewingKey scanned batchEnd = .ok s') :
    ∃ marked : List Nat, (∀ txId ∈ marked, scanned ≤ txId ∧ txId < batchEnd ∧
        scanTransaction libs s viewingKey txId = .ok true) ∧
      (∀ txId, scanned ≤ txId → txId < batchEnd →
        scanTransaction libs s viewingKey txId = .ok true → txId ∈ marked) ∧
      s' = commit s (marked.map (fun txId =>
        Op.put .walletRelevantTxs (walletRelevanceKey viewingHash txId) ()) ++
        [Op.put .walletScanProgress viewingHash.val batchEnd]) := by
  obtain ⟨marks, hloop, hs⟩ := bind_ok.mp h
  have hmarks : ∃ marked : List Nat, (∀ txId ∈ marked, txId ∈ List.range' scanned (batchEnd - scanned) ∧
      scanTransaction libs s viewingKey txId = .ok true) ∧
      (∀ txId ∈ List.range' scanned (batchEnd - scanned),
        scanTransaction libs s viewingKey txId = .ok true → txId ∈ marked) ∧
      marks = marked.map (fun txId =>
        Op.put .walletRelevantTxs (walletRelevanceKey viewingHash txId) ()) := by
    refine foldlM_induct hloop (I := fun done batch => ∃ marked : List Nat,
      (∀ txId ∈ marked, txId ∈ List.range' scanned (batchEnd - scanned) ∧
        scanTransaction libs s viewingKey txId = .ok true) ∧
      (∀ txId ∈ done, scanTransaction libs s viewingKey txId = .ok true → txId ∈ marked) ∧
      batch = marked.map (fun txId =>
        Op.put .walletRelevantTxs (walletRelevanceKey viewingHash txId) ())) ?_ ?_
    · exact ⟨[], by simp, by simp, rfl⟩
    · rintro done txId a b hmem ⟨marked, hin, hall, rfl⟩ hb
      obtain ⟨isMarked, hscan, hb⟩ := bind_ok.mp hb
      cases isMarked with
      | true =>
          refine ⟨marked ++ [txId], ?_, ?_, ?_⟩
          · intro i hi
            rcases List.mem_append.mp hi with hi | hi
            · exact hin i hi
            · obtain rfl := List.mem_singleton.mp hi
              exact ⟨hmem, hscan⟩
          · intro i hi hm
            rcases List.mem_append.mp hi with hi | hi
            · exact List.mem_append_left _ (hall i hi hm)
            · exact List.mem_append_right _ hi
          · rw [List.map_append]
            exact (Except.ok.inj hb).symm
      | false =>
          refine ⟨marked, hin, ?_, (Except.ok.inj hb).symm⟩
          intro i hi hm
          rcases List.mem_append.mp hi with hi | hi
          · exact hall i hi hm
          · obtain rfl := List.mem_singleton.mp hi
            rw [hscan] at hm
            cases hm
  obtain ⟨marked, hin, hall, rfl⟩ := hmarks
  refine ⟨marked, ?_, ?_, (Except.ok.inj hs).symm⟩
  · intro txId hm
    obtain ⟨hr, hscan⟩ := hin txId hm
    rw [List.mem_range'_1] at hr
    exact ⟨hr.1, by omega, hscan⟩
  · intro txId hlo hhi
    exact hall txId (List.mem_range'_1.mpr ⟨hlo, by omega⟩)

theorem mem_commit_marks (s : Store) (marked : List Nat) (k : Bytes) :
    k ∈ commit s (marked.map (fun txId =>
      Op.put .walletRelevantTxs (walletRelevanceKey viewingHash txId) ())) .walletRelevantTxs ↔
      k ∈ s .walletRelevantTxs ∨ ∃ txId ∈ marked, k = walletRelevanceKey viewingHash txId := by
  induction marked generalizing s with
  | nil => simp
  | cons txId marked ih =>
      rw [List.map_cons, commit_cons, ih, apply_put_same, Tables.mem_insert]
      simp only [List.mem_cons, exists_eq_or_imp]
      tauto

theorem commit_marks_other {q : Part} (hq : q ≠ .walletRelevantTxs) (s : Store) (marked : List Nat) :
    commit s (marked.map (fun txId =>
      Op.put .walletRelevantTxs (walletRelevanceKey viewingHash txId) ())) q = s q := by
  apply commit_other
  intro o ho
  obtain ⟨txId, -, rfl⟩ := List.mem_map.mp ho
  exact hq

theorem scanBatch_frame (h : scanBatch libs s viewingHash viewingKey scanned batchEnd = .ok s') :
    ∀ p, p ∉ walletParts → s' p = s p := by
  intro p hp
  obtain ⟨marked, -, -, rfl⟩ := scanBatch_ok h
  simp only [walletParts, List.mem_cons, List.not_mem_nil, or_false, not_or] at hp
  rw [commit_append, commit_singleton, apply_put_other _ hp.2, commit_marks_other hp.1]

theorem scanBatch_marked (h : scanBatch libs s viewingHash viewingKey scanned batchEnd = .ok s')
    (k : Bytes) : k ∈ s' .walletRelevantTxs ↔ k ∈ s .walletRelevantTxs ∨
      ∃ txId, scanned ≤ txId ∧ txId < batchEnd ∧
        scanTransaction libs s viewingKey txId = .ok true ∧
        k = walletRelevanceKey viewingHash txId := by
  obtain ⟨marked, hin, hall, rfl⟩ := scanBatch_ok h
  rw [commit_append, commit_singleton, apply_put_other _ (by decide), mem_commit_marks]
  apply or_congr_right
  constructor
  · rintro ⟨txId, hm, rfl⟩
    obtain ⟨h₁, h₂, h₃⟩ := hin txId hm
    exact ⟨txId, h₁, h₂, h₃, rfl⟩
  · rintro ⟨txId, h₁, h₂, h₃, rfl⟩
    exact ⟨txId, hall txId h₁ h₂ h₃, rfl⟩

theorem scanBatch_progress (h : scanBatch libs s viewingHash viewingKey scanned batchEnd = .ok s')
    (hash : ByteArr 32) :
    scanProgress s' hash = if viewingHash = hash then batchEnd else scanProgress s hash := by
  obtain ⟨marked, -, -, rfl⟩ := scanBatch_ok h
  rw [scanProgress, commit_append, commit_singleton, apply_put_same, get_insert,
    commit_marks_other (by decide), scanProgress]
  by_cases he : viewingHash = hash
  · rw [if_pos he, if_pos (congrArg Subtype.val he)]
    rfl
  · rw [if_neg he, if_neg (fun hv => he (Subtype.ext hv))]

end Scan

theorem Served.run {blocks : List DerivedBlock} {s : Store} {ids : Counters}
    (h : Served libs blocks s ids) : Run blocks s ids := by
  induction h with
  | start => exact .start
  | step d ledgerStateKey window h hroom hblock ih => exact .step d ledgerStateKey window ih hroom hblock
  | scan viewingKey batchEnd h hend hscan ih => exact .scan ih (scanBatch_frame hscan)

structure WalletTables (s : Store) (ids : Counters) : Prop where
  keys : ∀ k : Bytes, k ∈ s .walletRelevantTxs →
    ∃ viewingHash txId, txId < ids.nextTxId ∧ k = walletRelevanceKey viewingHash txId
  progress : ∀ viewingHash, scanProgress s viewingHash ≤ ids.nextTxId

theorem writeBlock_wallets {s s' : Store} {ids ids' : Counters} {d : DerivedBlock}
    {ledgerStateKey : Bytes} {window : LedgerStateWindow}
    (h : writeBlock s d.block d.transactions ledgerStateKey window ids = .ok (s', ids')) :
    ∀ p ∈ walletParts, s' p = s p := by
  intro p hp
  obtain ⟨st, balances, hloop, htail, rfl, rfl⟩ := writeBlock_ok.mp h
  have hq : p ∉ tailParts ∧ p ∉ loopParts := by
    revert p
    decide
  rw [blockBatch_frame hq.1 htail]
  exact writeTransactions_frame hq.2 hloop

theorem Served.wallets {blocks : List DerivedBlock} {s : Store} {ids : Counters}
    (h : Served libs blocks s ids) : WalletTables s ids := by
  induction h with
  | start => exact ⟨by simp [fresh_other], by simp [scanProgress, fresh_other]⟩
  | @step blocks s s' ids ids' d ledgerStateKey window h hroom hblock ih =>
      have hgrow : ids.nextTxId ≤ ids'.nextTxId := by
        have h₁ := (h.run.step d ledgerStateKey window hroom hblock).holds.counters
        have h₂ := h.run.holds.counters
        obtain ⟨new, hnew, -⟩ := (logOf_grown blocks [d]).txs
        rw [h₁, h₂]
        show (logOf blocks).txs.length ≤ (logOf (blocks ++ [d])).txs.length
        rw [hnew, List.length_append]
        exact Nat.le_add_right _ _
      have hparts := writeBlock_wallets hblock
      constructor
      · intro k hk
        rw [hparts _ (by decide)] at hk
        obtain ⟨hash, txId, hlt, rfl⟩ := ih.keys k hk
        exact ⟨hash, txId, Nat.lt_of_lt_of_le hlt hgrow, rfl⟩
      · intro hash
        rw [scanProgress, hparts _ (by decide), ← scanProgress]
        exact Nat.le_trans (ih.progress hash) hgrow
  | @scan blocks s s' ids viewingKey batchEnd h hend hscan ih =>
      constructor
      · intro k hk
        rcases (scanBatch_marked hscan k).mp hk with hold | ⟨txId, -, hlt, -, rfl⟩
        · exact ih.keys k hold
        · exact ⟨_, txId, Nat.lt_of_lt_of_le hlt hend, rfl⟩
      · intro hash
        rw [scanBatch_progress hscan]
        split
        · exact hend
        · exact ih.progress hash

theorem Served.scanLoop {blocks : List DerivedBlock} {s s' : Store} {ids : Counters}
    {viewingKey : ByteArr 32} {targetTx fuel : Nat} (h : Served libs blocks s ids)
    (htarget : targetTx ≤ ids.nextTxId)
    (hscan : scanLoop libs (libs.sha256 viewingKey.val) viewingKey targetTx fuel s
      (scanProgress s (libs.sha256 viewingKey.val)) = .ok s') : Served libs blocks s' ids := by
  induction fuel generalizing s with
  | zero => cases hscan; exact h
  | succ fuel ih =>
      rw [ShieldedSync.scanLoop] at hscan
      split at hscan
      · obtain ⟨s₁, hbatch, hrest⟩ := bind_ok.mp hscan
        apply ih (.scan viewingKey _ h (Nat.le_trans (Nat.min_le_left _ _) htarget) hbatch)
        rwa [scanBatch_progress hbatch, if_pos rfl]
      · cases hscan
        exact h

section Found

variable {s s' : Store} {viewingKey : ByteArr 32} {targetTx : Nat}

/-- The transactions that are relevant to a sync: those that earlier scans
marked, and those that its own scan finds. -/
def Found (libs : WalletLibs) (s : Store) (viewingKey : ByteArr 32) (targetTx txId : Nat) : Prop :=
  Marked s (libs.sha256 viewingKey.val) txId ∨
    scanProgress s (libs.sha256 viewingKey.val) ≤ txId ∧ txId < targetTx ∧
      scanTransaction libs s viewingKey txId = .ok true

theorem scanTransaction_congr (h : ∀ p, p ∉ walletParts → s' p = s p) (txId : Nat) :
    scanTransaction libs s' viewingKey txId = scanTransaction libs s viewingKey txId := by
  rw [scanTransaction, scanTransaction, tx, tx, walletTxIndexOf, walletTxIndexOf,
    h .txs (by decide), h .walletTxIndices (by decide)]

theorem scanWalletRelevance_frame {viewingHash : ByteArr 32}
    (h : scanWalletRelevance libs s viewingHash viewingKey targetTx = .ok s') :
    ∀ p, p ∉ walletParts → s' p = s p := by
  have general : ∀ (fuel : Nat) (s : Store) (scanned : Nat),
      scanLoop libs viewingHash viewingKey targetTx fuel s scanned = .ok s' →
      ∀ p, p ∉ walletParts → s' p = s p := by
    intro fuel
    induction fuel with
    | zero => intro s scanned hs p _; cases hs; rfl
    | succ fuel ih =>
        intro s scanned hs p hp
        rw [scanLoop] at hs
        split at hs
        · obtain ⟨s₁, hbatch, hrest⟩ := bind_ok.mp hs
          rw [ih s₁ _ hrest p hp, scanBatch_frame hbatch p hp]
        · cases hs
          rfl
  exact general _ s _ h

/-- After the scan the marks are those of the transactions found. -/
theorem scanWalletRelevance_marked
    (h : scanWalletRelevance libs s (libs.sha256 viewingKey.val) viewingKey targetTx = .ok s')
    {txId : Nat} (htx : txId < 2 ^ 64) (htarget : targetTx ≤ 2 ^ 64) :
    Marked s' (libs.sha256 viewingKey.val) txId ↔ Found libs s viewingKey targetTx txId := by
  have general : ∀ (fuel : Nat) (s : Store),
      targetTx ≤ scanProgress s (libs.sha256 viewingKey.val) + fuel →
      scanLoop libs (libs.sha256 viewingKey.val) viewingKey targetTx fuel s
        (scanProgress s (libs.sha256 viewingKey.val)) = .ok s' →
      (Marked s' (libs.sha256 viewingKey.val) txId ↔ Found libs s viewingKey targetTx txId) := by
    intro fuel
    induction fuel with
    | zero =>
        intro s hle hs
        cases hs
        exact ⟨.inl, fun hf => hf.elim id (fun hf => by omega)⟩
    | succ fuel ih =>
        intro s hle hs
        rw [scanLoop] at hs
        split at hs
        · rename_i hlt
          obtain ⟨s₁, hbatch, hrest⟩ := bind_ok.mp hs
          have hprogress := scanBatch_progress hbatch (libs.sha256 viewingKey.val)
          rw [if_pos rfl] at hprogress
          rw [← hprogress] at hrest
          rw [ih s₁ (by omega) hrest, Found, hprogress, scanTransaction_congr (scanBatch_frame hbatch),
            Marked, scanBatch_marked hbatch]
          constructor
          · rintro ((hm | ⟨i, h₁, h₂, h₃, hk⟩) | ⟨h₁, h₂, h₃⟩)
            · exact .inl hm
            · obtain ⟨-, rfl⟩ := prefixedU64Key_injective htx (by omega) hk
              exact .inr ⟨h₁, by omega, h₃⟩
            · exact .inr ⟨by omega, h₂, h₃⟩
          · rintro (hm | ⟨h₁, h₂, h₃⟩)
            · exact .inl (.inl hm)
            · by_cases hin : txId < min targetTx (scanProgress s (libs.sha256 viewingKey.val) + 1000)
              · exact .inl (.inr ⟨txId, h₁, hin, h₃, rfl⟩)
              · exact .inr ⟨by omega, h₂, h₃⟩
        · cases hs
          exact ⟨.inl, fun hf => hf.elim id (fun hf => by omega)⟩
  exact general _ s (by omega) h

end Found

end Nightfrost.ServedStore
