import Nightfrost.Interleaving
import Nightfrost.ServedStore

namespace Nightfrost.RelevanceScan

open ByteOrder Tables Partitions Domain Schema WriteBlock ExceptFold EntityLog BlockRun ShieldedSync
  ServedStore Scripts Interleaving

variable (libs : WalletLibs)

def scanTx (viewingKey : ByteArr 32) (txId : Nat) : Script Store String Bool := do
  match ← look (tx · txId) with
  | none => .fail s!"missing transaction {txId}"
  | some record =>
      if record.variant ≠ .regular then pure false
      else
        match ← look (walletTxIndexOf · txId) with
        | none => .fail s!"missing wallet transaction index {txId}"
        | some index => do
            let protocolVersion ← ofExcept (ProtocolVersion.tryFrom index.protocolVersion)
            let transaction ←
              ofExcept (libs.deserializeTransaction record.raw protocolVersion.ledgerVersion)
            pure (relevant libs transaction viewingKey)

def markTxs (viewingHash viewingKey : ByteArr 32) (txIds : List Nat) :
    Script Store String StoreBatch :=
  txIds.foldlM (fun batch txId => do
    if ← scanTx libs viewingKey txId then
      pure (batch ++ [Op.put .walletRelevantTxs (walletRelevanceKey viewingHash txId) ()])
    else pure batch) []

def scanTxs (viewingHash viewingKey : ByteArr 32) (scanned batchEnd : Nat) :
    Script Store String Unit := do
  let marks ← markTxs libs viewingHash viewingKey (List.range' scanned (batchEnd - scanned))
  change (fun s => commit s (marks ++ [Op.put .walletScanProgress viewingHash.val batchEnd]))

def scanRounds (viewingHash viewingKey : ByteArr 32) (targetTx : Nat) :
    Nat → Nat → Script Store String Unit
  | 0, _ => pure ()
  | fuel + 1, scanned =>
      if scanned < targetTx then do
        let batchEnd := min targetTx (scanned + 1000)
        scanTxs libs viewingHash viewingKey scanned batchEnd
        scanRounds viewingHash viewingKey targetTx fuel batchEnd
      else pure ()

/-- `scan_wallet_relevance`, read by read and batch by batch. -/
def scanRelevance (viewingHash viewingKey : ByteArr 32) (targetTx : Nat) :
    Script Store String Unit := do
  let scanned ← look (scanProgress · viewingHash)
  scanRounds libs viewingHash viewingKey targetTx (targetTx - scanned) scanned

section Alone

variable {libs} {s s' : Store} {viewingHash viewingKey : ByteArr 32}

theorem scanTx_run (txId : Nat) :
    (scanTx libs viewingKey txId).run s = (scanTransaction libs s viewingKey txId, s) := by
  rw [scanTx, scanTransaction]
  rw [run_bind, run_look]
  cases tx s txId with
  | none => rfl
  | some record =>
      dsimp only
      split
      · rfl
      · rw [run_bind, run_look]
        cases walletTxIndexOf s txId with
        | none => rfl
        | some index =>
            dsimp only
            rw [run_bind, run_ofExcept]
            cases ProtocolVersion.tryFrom index.protocolVersion with
            | error e => rfl
            | ok version =>
                dsimp only
                rw [run_bind, run_ofExcept]
                show _ = ((libs.deserializeTransaction record.raw version.ledgerVersion >>= _), s)
                cases libs.deserializeTransaction record.raw version.ledgerVersion <;> rfl

theorem markTxs_run (txIds : List Nat) :
    (markTxs libs viewingHash viewingKey txIds).run s =
      (txIds.foldlM (fun (batch : StoreBatch) txId => do
        if ← scanTransaction libs s viewingKey txId then
          .ok (batch ++ [Op.put .walletRelevantTxs (walletRelevanceKey viewingHash txId) ()])
        else .ok batch) [], s) := by
  have general : ∀ (txIds : List Nat) (batch : StoreBatch),
      (txIds.foldlM (fun (batch : StoreBatch) txId => do
        if ← scanTx libs viewingKey txId then
          pure (batch ++ [Op.put Part.walletRelevantTxs (walletRelevanceKey viewingHash txId) ()])
        else pure batch) batch).run s =
      (txIds.foldlM (fun (batch : StoreBatch) txId => do
        if ← scanTransaction libs s viewingKey txId then
          .ok (batch ++ [Op.put Part.walletRelevantTxs (walletRelevanceKey viewingHash txId) ()])
        else .ok batch) batch, s) := by
    intro txIds
    induction txIds with
    | nil => exact fun batch => rfl
    | cons txId txIds ih =>
        intro batch
        rw [List.foldlM_cons, List.foldlM_cons, run_bind, run_bind, scanTx_run]
        cases scanTransaction libs s viewingKey txId with
        | error e => rfl
        | ok marked =>
            cases marked with
            | true => exact ih _
            | false => exact ih _
  exact general txIds []

theorem scanTxs_run (scanned batchEnd : Nat) :
    (scanTxs libs viewingHash viewingKey scanned batchEnd).run s =
      match scanBatch libs s viewingHash viewingKey scanned batchEnd with
      | .ok s' => (.ok (), s')
      | .error e => (.error e, s) := by
  rw [scanTxs, scanBatch]
  rw [run_bind, markTxs_run]
  generalize List.foldlM (m := Except String) _ _ _ = marks
  cases marks <;> rfl

theorem scanRelevance_run (targetTx : Nat) :
    (scanRelevance libs viewingHash viewingKey targetTx).run s = (.ok (), s') ↔
      scanWalletRelevance libs s viewingHash viewingKey targetTx = .ok s' := by
  have general : ∀ (fuel scanned : Nat) (s : Store),
      (scanRounds libs viewingHash viewingKey targetTx fuel scanned).run s = (.ok (), s') ↔
        scanLoop libs viewingHash viewingKey targetTx fuel s scanned = .ok s' := by
    intro fuel
    induction fuel with
    | zero =>
        intro scanned s
        exact ⟨fun h => congrArg Except.ok (Prod.mk.inj h).2, fun h => by rw [← Except.ok.inj h]; rfl⟩
    | succ fuel ih =>
        intro scanned s
        rw [scanRounds, scanLoop]
        split
        · dsimp only
          rw [run_bind, scanTxs_run]
          cases hbatch : scanBatch libs s viewingHash viewingKey scanned
              (min targetTx (scanned + 1000)) with
          | error e =>
              constructor
              · intro h
                cases (Prod.mk.inj h).1
              · intro h
                cases h
          | ok s₁ => exact ih _ s₁
        · exact ⟨fun h => congrArg Except.ok (Prod.mk.inj h).2,
            fun h => by rw [← Except.ok.inj h]; rfl⟩
  rw [scanRelevance, scanWalletRelevance]
  rw [run_bind, run_look]
  exact general _ _ s

end Alone

section Shared

/-- What the indexer may do while a scan runs: it adds transactions. -/
structure Appends (s s' : Store) : Prop where
  wallets : ∀ p ∈ walletParts, s' p = s p
  txs : ∀ txId record, tx s txId = some record → tx s' txId = some record
  indices : ∀ txId index, walletTxIndexOf s txId = some index → walletTxIndexOf s' txId = some index

theorem Appends.refl (s : Store) : Appends s s :=
  ⟨fun _ _ => rfl, fun _ _ h => h, fun _ _ h => h⟩

theorem Appends.trans (s s' s'' : Store) (h : Appends s s') (h' : Appends s' s'') : Appends s s'' where
  wallets p hp := (h'.wallets p hp).trans (h.wallets p hp)
  txs txId record hget := h'.txs txId record (h.txs txId record hget)
  indices txId index hget := h'.indices txId index (h.indices txId index hget)

variable {libs} {s s' : Store} {viewingHash viewingKey : ByteArr 32}

theorem Appends.progress (h : Appends s s') (viewingHash : ByteArr 32) :
    scanProgress s' viewingHash = scanProgress s viewingHash := by
  rw [scanProgress, scanProgress, h.wallets _ (by decide)]

theorem Appends.marks (h : Appends s s') : s' .walletRelevantTxs = s .walletRelevantTxs :=
  h.wallets _ (by decide)

theorem scanTransaction_ok {txId : Nat} {accepted : Bool} :
    scanTransaction libs s viewingKey txId = .ok accepted ↔
      ∃ record, tx s txId = some record ∧
        (record.variant ≠ .regular ∧ accepted = false ∨
          record.variant = .regular ∧ ∃ index version transaction, walletTxIndexOf s txId = some index ∧
            ProtocolVersion.tryFrom index.protocolVersion = .ok version ∧
            libs.deserializeTransaction record.raw version.ledgerVersion = .ok transaction ∧
            relevant libs transaction viewingKey = accepted) := by
  rw [scanTransaction]
  constructor
  · intro hscan
    cases htx : tx s txId with
    | none =>
        rw [htx] at hscan
        cases hscan
    | some record =>
        rw [htx] at hscan
        dsimp only at hscan
        refine ⟨record, rfl, ?_⟩
        by_cases hregular : record.variant ≠ .regular
        · rw [if_pos hregular] at hscan
          exact .inl ⟨hregular, (Except.ok.inj hscan).symm⟩
        · rw [if_neg hregular] at hscan
          refine .inr ⟨not_not.mp hregular, ?_⟩
          cases hindex : walletTxIndexOf s txId with
          | none =>
              rw [hindex] at hscan
              cases hscan
          | some index =>
              rw [hindex] at hscan
              obtain ⟨version, hversion, hrest⟩ := bind_ok.mp hscan
              obtain ⟨transaction, hdecode, hok⟩ := bind_ok.mp hrest
              exact ⟨index, version, transaction, rfl, hversion, hdecode, Except.ok.inj hok⟩
  · rintro ⟨record, htx, hverdict⟩
    rw [htx]
    dsimp only
    rcases hverdict with ⟨hregular, rfl⟩ | ⟨hregular, index, version, transaction, hindex, hversion, hdecode, rfl⟩
    · exact if_pos hregular
    · rw [if_neg (not_not.mpr hregular), hindex]
      exact bind_ok.mpr ⟨version, hversion, bind_ok.mpr ⟨transaction, hdecode, rfl⟩⟩

theorem scanTransaction_kept
    (htxs : ∀ txId record, tx s txId = some record → tx s' txId = some record)
    (hindices : ∀ txId index, walletTxIndexOf s txId = some index →
      walletTxIndexOf s' txId = some index) {txId : Nat} {accepted : Bool}
    (hscan : scanTransaction libs s viewingKey txId = .ok accepted) :
    scanTransaction libs s' viewingKey txId = .ok accepted := by
  obtain ⟨record, htx, hverdict⟩ := scanTransaction_ok.mp hscan
  refine scanTransaction_ok.mpr ⟨record, htxs txId record htx, ?_⟩
  rcases hverdict with hother | ⟨hregular, index, version, transaction, hindex, hrest⟩
  · exact .inl hother
  · exact .inr ⟨hregular, index, version, transaction, hindices txId index hindex, hrest⟩

theorem Appends.scanTransaction (h : Appends s s') {txId : Nat} {accepted : Bool}
    (hscan : scanTransaction libs s viewingKey txId = .ok accepted) :
    scanTransaction libs s' viewingKey txId = .ok accepted :=
  scanTransaction_kept h.txs h.indices hscan

/-- The marks for a key are those of the accepted transactions below its progress. -/
structure Exact (libs : WalletLibs) (s : Store) (viewingKey : ByteArr 32) : Prop where
  verdict : ∀ txId, txId < scanProgress s (libs.sha256 viewingKey.val) →
    ∃ accepted, scanTransaction libs s viewingKey txId = .ok accepted ∧
      (accepted = true ↔ Marked s (libs.sha256 viewingKey.val) txId)
  below : ∀ k : Bytes, k ∈ s .walletRelevantTxs → (libs.sha256 viewingKey.val).val <+: k →
    ∃ txId, txId < scanProgress s (libs.sha256 viewingKey.val) ∧
      k = walletRelevanceKey (libs.sha256 viewingKey.val) txId

theorem Exact.appends (h : Exact libs s viewingKey) (ha : Appends s s') : Exact libs s' viewingKey := by
  constructor
  · intro txId hlt
    rw [ha.progress] at hlt
    obtain ⟨accepted, hscan, hmarked⟩ := h.verdict txId hlt
    refine ⟨accepted, ha.scanTransaction hscan, hmarked.trans ?_⟩
    rw [Marked, Marked, ha.marks]
  · intro k hk hunder
    rw [ha.marks] at hk
    rw [ha.progress]
    exact h.below k hk hunder

structure Commits (libs : WalletLibs) (viewingKey : ByteArr 32) (targetTx : Nat) (s s' : Store) :
    Prop where
  frame : ∀ p, p ∉ walletParts → s' p = s p
  others : ∀ hash : ByteArr 32, hash ≠ libs.sha256 viewingKey.val →
    scanProgress s' hash = scanProgress s hash ∧
      ∀ k : Bytes, hash.val <+: k → (k ∈ s' .walletRelevantTxs ↔ k ∈ s .walletRelevantTxs)
  progress : scanProgress s (libs.sha256 viewingKey.val) ≤
    scanProgress s' (libs.sha256 viewingKey.val)
  target : scanProgress s' (libs.sha256 viewingKey.val) ≤ targetTx
  exact : targetTx ≤ 2 ^ 64 → Exact libs s viewingKey → Exact libs s' viewingKey

theorem under_walletRelevanceKey {hash hash' : ByteArr 32} {txId : Nat}
    (h : hash.val <+: walletRelevanceKey hash' txId) : hash = hash' := by
  apply Subtype.ext
  refine List.IsPrefix.eq_of_length ?_ (hash.property.trans hash'.property.symm)
  exact List.prefix_of_prefix_length_le h (List.prefix_append _ _)
    (hash.property.trans hash'.property.symm).le

theorem scanTx_guards {G : Store → Store → Prop} (txId : Nat) (s : Store) :
    Guards Appends G
      (fun accepted s' => Appends s s' ∧ scanTransaction libs s' viewingKey txId = .ok accepted)
      (scanTx libs viewingKey txId) s := by
  rw [scanTx]
  refine guards_look fun s₁ h₁ => ?_
  cases htx : tx s₁ txId with
  | none => exact guards_fail _
  | some record =>
      dsimp only
      split
      · rename_i hregular
        refine guards_pure fun s₂ h₂ => ⟨h₁.trans _ _ _ h₂, ?_⟩
        rw [scanTransaction, h₂.txs txId record htx]
        exact if_pos hregular
      · rename_i hregular
        refine guards_look fun s₂ h₂ => ?_
        cases hindex : walletTxIndexOf s₂ txId with
        | none => exact guards_fail _
        | some index =>
            have hscan : scanTransaction libs s₂ viewingKey txId = (do
                let protocolVersion ← ProtocolVersion.tryFrom index.protocolVersion
                let transaction ←
                  libs.deserializeTransaction record.raw protocolVersion.ledgerVersion
                .ok (relevant libs transaction viewingKey)) := by
              rw [scanTransaction, h₂.txs txId record htx]
              dsimp only
              rw [if_neg hregular, hindex]
            refine guards_bind Appends.refl (P := fun version s' =>
              ProtocolVersion.tryFrom index.protocolVersion = .ok version ∧ Appends s₂ s')
              (guards_ofExcept fun version hversion s' h => ⟨hversion, h⟩) ?_
            rintro version s₃ ⟨hversion, h₃⟩
            refine guards_bind Appends.refl (P := fun transaction s' =>
              libs.deserializeTransaction record.raw version.ledgerVersion = .ok transaction ∧
                Appends s₂ s')
              (guards_ofExcept fun transaction hdecode s' h => ⟨hdecode, h₃.trans _ _ _ h⟩) ?_
            rintro transaction s₄ ⟨hdecode, h₄⟩
            refine guards_pure fun s₅ h₅ => ?_
            have hlater := h₄.trans _ _ _ h₅
            refine ⟨(h₁.trans _ _ _ h₂).trans _ _ _ hlater, hlater.scanTransaction ?_⟩
            rw [hscan]
            exact bind_ok.mpr ⟨version, hversion, bind_ok.mpr ⟨transaction, hdecode, rfl⟩⟩

/-- The marks that a batch has gathered for some transactions. -/
structure Verdicts (libs : WalletLibs) (s : Store) (viewingKey : ByteArr 32)
    (txIds marked : List Nat) : Prop where
  each : ∀ txId ∈ txIds, ∃ accepted, scanTransaction libs s viewingKey txId = .ok accepted
  marked : ∀ txId, txId ∈ marked ↔
    txId ∈ txIds ∧ scanTransaction libs s viewingKey txId = .ok true

theorem Verdicts.appends {txIds marked : List Nat} (h : Verdicts libs s viewingKey txIds marked)
    (ha : Appends s s') : Verdicts libs s' viewingKey txIds marked := by
  constructor
  · intro txId hmem
    obtain ⟨accepted, hscan⟩ := h.each txId hmem
    exact ⟨accepted, ha.scanTransaction hscan⟩
  · intro txId
    rw [h.marked]
    refine and_congr_right fun hmem => ?_
    obtain ⟨accepted, hscan⟩ := h.each txId hmem
    rw [hscan, ha.scanTransaction hscan]

theorem Verdicts.push {txIds marked : List Nat} {txId : Nat} {accepted : Bool}
    (h : Verdicts libs s viewingKey txIds marked)
    (hscan : scanTransaction libs s viewingKey txId = .ok accepted) :
    Verdicts libs s viewingKey (txIds ++ [txId]) (if accepted then marked ++ [txId] else marked) := by
  constructor
  · intro i hi
    rcases List.mem_append.mp hi with hi | hi
    · exact h.each i hi
    · rw [List.mem_singleton.mp hi]
      exact ⟨accepted, hscan⟩
  · intro i
    rw [List.mem_append, List.mem_singleton]
    cases accepted with
    | true =>
        rw [if_pos rfl, List.mem_append, List.mem_singleton, h.marked]
        constructor
        · rintro (⟨hi, hi'⟩ | rfl)
          · exact ⟨.inl hi, hi'⟩
          · exact ⟨.inr rfl, hscan⟩
        · rintro ⟨hi | rfl, hi'⟩
          · exact .inl ⟨hi, hi'⟩
          · exact .inr rfl
    | false =>
        rw [if_neg Bool.false_ne_true, h.marked]
        refine ⟨fun hi => ⟨.inl hi.1, hi.2⟩, ?_⟩
        rintro ⟨hi | rfl, hi'⟩
        · exact ⟨hi, hi'⟩
        · rw [hscan] at hi'
          cases hi'

def markOf (viewingHash : ByteArr 32) (txId : Nat) : Op Part.Val :=
  .put .walletRelevantTxs (walletRelevanceKey viewingHash txId) ()

theorem markTxs_guards {G : Store → Store → Prop} {scanned : Nat} (txIds : List Nat)
    (hprogress : scanProgress s viewingHash = scanned) :
    Guards Appends G (fun marks s' => scanProgress s' viewingHash = scanned ∧
        ∃ marked, marks = marked.map (markOf viewingHash) ∧ Verdicts libs s' viewingKey txIds marked)
      (markTxs libs viewingHash viewingKey txIds) s := by
  refine guards_foldlM Appends.refl (J := fun (front : List Nat) (marks : StoreBatch) s' =>
    scanProgress s' viewingHash = scanned ∧
      ∃ marked, marks = marked.map (markOf viewingHash) ∧ Verdicts libs s' viewingKey front marked)
    ?_ ?_ ?_
  · intro s' ha
    refine ⟨(ha.progress _).trans hprogress, [], rfl, ?_, ?_⟩
    · exact fun txId hmem => absurd hmem List.not_mem_nil
    · exact fun txId => ⟨fun hmem => absurd hmem List.not_mem_nil, fun h => h.1⟩
  · rintro front txId marks s₁ ⟨hat, marked, rfl, hverdicts⟩
    apply guards_bind Appends.refl (scanTx_guards txId s₁)
    rintro accepted s₂ ⟨h₂, hscan⟩
    have hpush := (hverdicts.appends h₂).push hscan
    cases accepted with
    | true =>
        refine guards_pure fun s₃ h₃ => ⟨?_, marked ++ [txId], ?_, hpush.appends h₃⟩
        · exact ((h₂.trans _ _ _ h₃).progress _).trans hat
        · rw [List.map_append]
          rfl
    | false =>
        refine guards_pure fun s₃ h₃ => ⟨?_, marked, rfl, hpush.appends h₃⟩
        exact ((h₂.trans _ _ _ h₃).progress _).trans hat
  · rintro front marks s₁ s₂ ⟨hat, marked, hmarks, hverdicts⟩ h
    exact ⟨(h.progress _).trans hat, marked, hmarks, hverdicts.appends h⟩

def batchOf (viewingHash : ByteArr 32) (marked : List Nat) (batchEnd : Nat) : StoreBatch :=
  marked.map (markOf viewingHash) ++ [.put .walletScanProgress viewingHash.val batchEnd]

theorem batch_marks (viewingHash : ByteArr 32) (s : Store) (marked : List Nat) (batchEnd : Nat) (k : Bytes) :
    k ∈ commit s (batchOf viewingHash marked batchEnd) .walletRelevantTxs ↔
      k ∈ s .walletRelevantTxs ∨ ∃ txId ∈ marked, k = walletRelevanceKey viewingHash txId := by
  rw [batchOf, commit_append, commit_singleton, apply_put_other _ (by decide)]
  exact mem_commit_marks s marked k

theorem batch_progress (viewingHash : ByteArr 32) (s : Store) (marked : List Nat) (batchEnd : Nat) (hash : ByteArr 32) :
    scanProgress (commit s (batchOf viewingHash marked batchEnd)) hash =
      if viewingHash = hash then batchEnd else scanProgress s hash := by
  have hother : commit s (marked.map (markOf viewingHash)) .walletScanProgress =
      s .walletScanProgress := commit_marks_other (by decide) s marked
  rw [scanProgress, batchOf, commit_append, commit_singleton, apply_put_same, get_insert, hother,
    scanProgress]
  by_cases he : viewingHash = hash
  · rw [if_pos he, if_pos (congrArg Subtype.val he)]
    rfl
  · rw [if_neg he, if_neg (fun hv => he (Subtype.ext hv))]

theorem batch_frame (viewingHash : ByteArr 32) (s : Store) (marked : List Nat) (batchEnd : Nat) (p : Part)
    (hp : p ∉ walletParts) : commit s (batchOf viewingHash marked batchEnd) p = s p := by
  simp only [walletParts, List.mem_cons, List.not_mem_nil, or_false, not_or] at hp
  rw [batchOf, commit_append, commit_singleton, apply_put_other _ hp.2]
  exact commit_marks_other hp.1 s marked

theorem batch_commits {scanned batchEnd targetTx : Nat} {marked : List Nat}
    (hprogress : scanProgress s (libs.sha256 viewingKey.val) = scanned) (hfrom : scanned ≤ batchEnd)
    (hend : batchEnd ≤ targetTx)
    (hverdicts : Verdicts libs s viewingKey (List.range' scanned (batchEnd - scanned)) marked) :
    Commits libs viewingKey targetTx s
      (commit s (batchOf (libs.sha256 viewingKey.val) marked batchEnd)) := by
  obtain ⟨s', hs'⟩ : ∃ s', s' = commit s (batchOf (libs.sha256 viewingKey.val) marked batchEnd) :=
    ⟨_, rfl⟩
  have hmarks := batch_marks (libs.sha256 viewingKey.val) s marked batchEnd
  have hnext := batch_progress (libs.sha256 viewingKey.val) s marked batchEnd
  have hframe := batch_frame (libs.sha256 viewingKey.val) s marked batchEnd
  rw [← hs'] at hmarks hnext hframe ⊢
  have hrange : ∀ txId, txId ∈ marked → scanned ≤ txId ∧ txId < batchEnd := by
    intro txId hmem
    have hin := ((hverdicts.marked txId).mp hmem).1
    rw [List.mem_range'_1] at hin
    omega
  have hown : scanProgress s' (libs.sha256 viewingKey.val) = batchEnd := by
    rw [hnext, if_pos rfl]
  refine ⟨hframe, ?_, ?_, ?_, ?_⟩
  · intro hash hne
    refine ⟨by rw [hnext, if_neg (Ne.symm hne)], fun k hunder => ?_⟩
    rw [hmarks]
    refine ⟨fun h => h.elim id ?_, .inl⟩
    rintro ⟨txId, -, rfl⟩
    exact absurd (under_walletRelevanceKey hunder) hne
  · rw [hown, hprogress]
    exact hfrom
  · rw [hown]
    exact hend
  · intro hsize hexact
    have hverdict : ∀ txId, scanTransaction libs s' viewingKey txId =
        scanTransaction libs s viewingKey txId := scanTransaction_congr hframe
    have hmarked : ∀ txId, txId < batchEnd → (Marked s' (libs.sha256 viewingKey.val) txId ↔
        Marked s (libs.sha256 viewingKey.val) txId ∨ txId ∈ marked) := by
      intro txId hlt
      rw [Marked, hmarks]
      refine or_congr_right ⟨?_, fun hmem => ⟨txId, hmem, rfl⟩⟩
      rintro ⟨i, hi, hk⟩
      have hi' := hrange i hi
      obtain ⟨-, rfl⟩ := prefixedU64Key_injective (by omega) (by omega) hk
      exact hi
    constructor
    · intro txId hlt
      rw [hown] at hlt
      rw [hmarked txId hlt, hverdict]
      by_cases hold : txId < scanned
      · obtain ⟨accepted, hscan, hiff⟩ := hexact.verdict txId (by rw [hprogress]; exact hold)
        refine ⟨accepted, hscan, hiff.trans (or_iff_left fun hmem => ?_).symm⟩
        exact absurd (hrange txId hmem).1 (Nat.not_le.mpr hold)
      · have hin : txId ∈ List.range' scanned (batchEnd - scanned) := by
          rw [List.mem_range'_1]
          omega
        obtain ⟨accepted, hscan⟩ := hverdicts.each txId hin
        have hnew : ¬ Marked s (libs.sha256 viewingKey.val) txId := by
          intro hmem
          obtain ⟨i, hi, hk⟩ := hexact.below _ hmem (List.prefix_append _ _)
          rw [hprogress] at hi
          obtain ⟨-, rfl⟩ := prefixedU64Key_injective (by omega) (by omega) hk
          exact hold hi
        refine ⟨accepted, hscan, ?_⟩
        rw [or_iff_right hnew, hverdicts.marked, hscan, and_iff_right hin, Except.ok.injEq]
    · intro k hk hunder
      rw [hown]
      rcases (hmarks k).mp hk with hold | ⟨txId, hmem, rfl⟩
      · obtain ⟨txId, hlt, rfl⟩ := hexact.below k hold hunder
        exact ⟨txId, by omega, rfl⟩
      · exact ⟨txId, (hrange txId hmem).2, rfl⟩

variable {targetTx : Nat}

theorem scanTxs_guards {scanned batchEnd : Nat}
    (hprogress : scanProgress s (libs.sha256 viewingKey.val) = scanned) (hfrom : scanned ≤ batchEnd)
    (hend : batchEnd ≤ targetTx) :
    Guards Appends (Commits libs viewingKey targetTx)
      (fun _ s' => scanProgress s' (libs.sha256 viewingKey.val) = batchEnd)
      (scanTxs libs (libs.sha256 viewingKey.val) viewingKey scanned batchEnd) s := by
  apply guards_bind Appends.refl (markTxs_guards _ hprogress)
  rintro marks s₁ ⟨hat, marked, rfl, hverdicts⟩
  intro s₂ h₂
  have hcommits := batch_commits ((h₂.progress _).trans hat) hfrom hend (hverdicts.appends h₂)
  refine ⟨hcommits, fun s₃ h₃ => (h₃.progress _).trans ?_⟩
  exact (batch_progress _ s₂ marked batchEnd _).trans (if_pos rfl)

theorem scanRounds_guards {fuel scanned : Nat} (hfuel : targetTx ≤ scanned + fuel)
    (hprogress : scanProgress s (libs.sha256 viewingKey.val) = scanned) :
    Guards Appends (Commits libs viewingKey targetTx)
      (fun _ s' => targetTx ≤ scanProgress s' (libs.sha256 viewingKey.val))
      (scanRounds libs (libs.sha256 viewingKey.val) viewingKey targetTx fuel scanned) s := by
  induction fuel generalizing s scanned with
  | zero =>
      refine guards_pure fun s' h => ?_
      rw [h.progress, hprogress]
      exact hfuel
  | succ fuel ih =>
      rw [scanRounds]
      split
      · dsimp only
        refine guards_bind Appends.refl
          (scanTxs_guards hprogress (by omega) (Nat.min_le_left _ _)) (fun _ s' hat => ?_)
        exact ih (by omega) hat
      · refine guards_pure fun s' h => ?_
        rw [h.progress, hprogress]
        omega

/-- A scan commits exact batches and ends at or above its target, whatever the
indexer adds meanwhile. -/
theorem scanRelevance_guards (targetTx : Nat) (s : Store) :
    Guards Appends (Commits libs viewingKey targetTx)
      (fun _ s' => targetTx ≤ scanProgress s' (libs.sha256 viewingKey.val))
      (scanRelevance libs (libs.sha256 viewingKey.val) viewingKey targetTx) s := by
  refine guards_bind Appends.refl (P := fun scanned s' =>
    scanProgress s' (libs.sha256 viewingKey.val) = scanned) ?_ ?_
  · intro s₁ _ s₂ h₂
    exact h₂.progress _
  · intro scanned s₁ hat
    exact scanRounds_guards (by omega) hat

end Shared

end Nightfrost.RelevanceScan
