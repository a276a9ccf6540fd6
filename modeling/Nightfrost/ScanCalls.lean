import Nightfrost.RelevanceScan
import Nightfrost.SyncDelivery

namespace Nightfrost.ScanCalls

open Relation ByteOrder Tables Partitions Domain Schema WriteBlock Staging ExceptFold EntityLog BlockRun
  ShieldedSync ServedStore Scripts Interleaving RelevanceScan

structure ScanCall where
  viewingKey : ByteArr 32
  targetTx : Nat
  deriving DecidableEq

/-- The indexer and the scans of the API over one store. The lock lets one scan
run at a time. -/
structure System where
  blocks : List DerivedBlock
  store : Store
  ids : Counters
  running : Option (ScanCall × Script Store String Unit)
  calls : List ScanCall
  returned : List ScanCall

def System.start : System := ⟨[], fresh, Counters.load fresh, none, [], []⟩

variable (libs : WalletLibs)

def viewingHash (viewingKey : ByteArr 32) : ByteArr 32 := libs.sha256 viewingKey.val

def ScanCall.program (call : ScanCall) : Script Store String Unit :=
  scanRelevance libs (viewingHash libs call.viewingKey) call.viewingKey call.targetTx

/-- One step of the indexer or of a scan. A crash loses what runs in memory. -/
inductive Step : System → System → Prop
  | block {y : System} {s' : Store} {ids' : Counters} (d : DerivedBlock) (ledgerStateKey : Bytes)
      (window : LedgerStateWindow) (hroom : Room y.ids d.transactions)
      (hblock : writeBlock y.store d.block d.transactions ledgerStateKey window y.ids =
        .ok (s', ids')) :
      Step y { y with blocks := y.blocks ++ [d], store := s', ids := ids' }
  | call {y : System} (call : ScanCall) (hidle : y.running = none)
      (htarget : call.targetTx ≤ y.ids.nextTxId) :
      Step y { y with running := some (call, call.program libs), calls := y.calls ++ [call] }
  | advance {y : System} {call : ScanCall} {x x' : Script Store String Unit} {s' : Store}
      (hrunning : y.running = some (call, x)) (hadvance : Advances x y.store x' s') :
      Step y { y with running := some (call, x'), store := s' }
  | returned {y : System} {call : ScanCall} (hrunning : y.running = some (call, .done ())) :
      Step y { y with running := none, returned := y.returned ++ [call] }
  | failed {y : System} {call : ScanCall} {e : String} (hrunning : y.running = some (call, .fail e)) :
      Step y { y with running := none }
  | storeError {y : System} : Step y { y with running := none }
  | crash {y : System} : Step y { y with running := none, ids := Counters.load y.store }

def Reachable (y : System) : Prop := ReflTransGen (Step libs) .start y

/-- No other key that was scanned for has the hash of this one. -/
def Distinct (viewingKey : ByteArr 32) (calls : List ScanCall) : Prop :=
  ∀ call ∈ calls, viewingHash libs call.viewingKey = viewingHash libs viewingKey →
    call.viewingKey = viewingKey

def Accepted (s : Store) (viewingKey : ByteArr 32) (txId : Nat) : Prop :=
  ∃ record index version transaction, tx s txId = some record ∧ record.variant = .regular ∧
    walletTxIndexOf s txId = some index ∧
    ProtocolVersion.tryFrom index.protocolVersion = .ok version ∧
    libs.deserializeTransaction record.raw version.ledgerVersion = .ok transaction ∧
    relevant libs transaction viewingKey = true

variable {libs} {s s' : Store} {viewingKey : ByteArr 32} {y y' : System}

theorem accepted_iff {txId : Nat} :
    Accepted libs s viewingKey txId ↔ scanTransaction libs s viewingKey txId = .ok true := by
  rw [scanTransaction_ok]
  constructor
  · rintro ⟨record, index, version, transaction, htx, hregular, hrest⟩
    exact ⟨record, htx, .inr ⟨hregular, index, version, transaction, hrest⟩⟩
  · rintro ⟨record, htx, ⟨-, hfalse⟩ | ⟨hregular, index, version, transaction, hrest⟩⟩
    · cases hfalse
    · exact ⟨record, index, version, transaction, htx, hregular, hrest⟩

theorem txs_kept {blocks more : List DerivedBlock} {ids ids' : Counters} (h : Run blocks s ids)
    (h' : Run (blocks ++ more) s' ids') (txId : Nat) (record : TxRecord)
    (hget : tx s txId = some record) : tx s' txId = some record := by
  obtain ⟨new, hnew, -⟩ := (logOf_grown blocks more).txs
  obtain ⟨i, hi, hkey⟩ := h.holds.tables.txs.records.get_iff.mp hget
  refine h'.holds.tables.txs.records.get_iff.mpr ⟨i, ?_, hkey⟩
  rw [hnew, List.getElem?_append_left (List.getElem?_eq_some_iff.mp hi).1]
  exact hi

theorem indices_kept {blocks more : List DerivedBlock} {ids ids' : Counters} (h : Run blocks s ids)
    (h' : Run (blocks ++ more) s' ids') (txId : Nat) (index : WalletTxIndexRecord)
    (hget : walletTxIndexOf s txId = some index) : walletTxIndexOf s' txId = some index := by
  obtain ⟨new, hnew⟩ := (logOf_grown blocks more).walletTxIndices
  obtain ⟨i, hi, hkey⟩ := h.holds.tables.txs.walletTxIndices.get_iff.mp hget
  refine h'.holds.tables.txs.walletTxIndices.get_iff.mpr ⟨i, ?_, hkey⟩
  rw [hnew, List.getElem?_append_left (List.getElem?_eq_some_iff.mp hi).1]
  exact hi

theorem appends_of_runs {blocks more : List DerivedBlock} {ids ids' : Counters}
    (h : Run blocks s ids) (h' : Run (blocks ++ more) s' ids')
    (hwallets : ∀ p ∈ walletParts, s' p = s p) : Appends s s' :=
  ⟨hwallets, txs_kept h h', indices_kept h h'⟩

theorem nextTxId_grown {blocks more : List DerivedBlock} {ids ids' : Counters}
    (h : Run blocks s ids) (h' : Run (blocks ++ more) s' ids') : ids.nextTxId ≤ ids'.nextTxId := by
  obtain ⟨new, hnew, -⟩ := (logOf_grown blocks more).txs
  rw [h.holds.counters, h'.holds.counters]
  show (logOf blocks).txs.length ≤ (logOf (blocks ++ more)).txs.length
  rw [hnew, List.length_append]
  exact Nat.le_add_right _ _

theorem nextTxId_le {blocks : List DerivedBlock} {ids : Counters} (h : Run blocks s ids) :
    ids.nextTxId ≤ 2 ^ 64 := by
  rw [h.holds.counters]
  exact h.holds.tables.txs.records.bound

theorem counters_load {blocks : List DerivedBlock} {ids : Counters} (h : Run blocks s ids) :
    Counters.load s = ids := by
  induction h with
  | start => rfl
  | step d ledgerStateKey window h hroom hblock ih => exact (writeBlock_metadata hblock).2.2.1
  | @scan blocks s s' ids h hscan ih =>
      have hmeta : s' .metadata = s .metadata := hscan _ (by decide)
      rw [← ih]
      simp only [Counters.load, nextId, metaU64, hmeta]

/-- The guarantee that the rest of a running scan keeps. -/
def Guarded (libs : WalletLibs) (call : ScanCall) (x : Script Store String Unit) (s : Store) : Prop :=
  Guards Appends (Commits libs call.viewingKey call.targetTx)
    (fun _ s' => call.targetTx ≤ scanProgress s' (viewingHash libs call.viewingKey)) x s

structure Serving (libs : WalletLibs) (y : System) : Prop where
  run : Run y.blocks y.store y.ids
  running : ∀ call x, y.running = some (call, x) → call ∈ y.calls ∧
    call.targetTx ≤ y.ids.nextTxId ∧ Guarded libs call x y.store

theorem Step.serving (h : Step libs y y') (hs : Serving libs y) : Serving libs y' := by
  cases h with
  | block d ledgerStateKey window hroom hblock =>
      have hrun := hs.run.step d ledgerStateKey window hroom hblock
      refine ⟨hrun, fun call x hrunning => ?_⟩
      obtain ⟨hmem, htarget, hguard⟩ := hs.running call x hrunning
      have happends := appends_of_runs hs.run hrun (writeBlock_wallets hblock)
      exact ⟨hmem, htarget.trans (nextTxId_grown hs.run hrun), hguard.stable Appends.trans happends⟩
  | call call hidle htarget =>
      refine ⟨hs.run, fun call' x hrunning => ?_⟩
      obtain ⟨rfl, rfl⟩ := Prod.mk.inj (Option.some.inj hrunning)
      exact ⟨List.mem_append_right _ (List.mem_singleton_self _), htarget,
        scanRelevance_guards call.targetTx y.store⟩
  | advance hrunning hadvance =>
      obtain ⟨hmem, htarget, hguard⟩ := hs.running _ _ hrunning
      obtain ⟨hwrite, hrest⟩ := hguard.advances Appends.refl hadvance
      constructor
      · rcases hwrite with rfl | hcommits
        · exact hs.run
        · exact hs.run.scan hcommits.frame
      · intro call' x hrunning'
        obtain ⟨rfl, rfl⟩ := Prod.mk.inj (Option.some.inj hrunning')
        exact ⟨hmem, htarget, hrest⟩
  | returned hrunning => exact ⟨hs.run, fun call x h => (nomatch h)⟩
  | failed hrunning => exact ⟨hs.run, fun call x h => (nomatch h)⟩
  | storeError => exact ⟨hs.run, fun call x h => (nomatch h)⟩
  | crash =>
      refine ⟨?_, fun call x h => (nomatch h)⟩
      rw [counters_load hs.run]
      exact hs.run

theorem Serving.reach (hs : Serving libs y) (h : ReflTransGen (Step libs) y y') :
    Serving libs y' := by
  induction h with
  | refl => exact hs
  | tail _ hstep ih => exact hstep.serving ih

theorem Reachable.serving (h : Reachable libs y) : Serving libs y :=
  Serving.reach ⟨.start, fun call x hrunning => by cases hrunning⟩ h

theorem Step.others (h : Step libs y y') (hs : Serving libs y)
    (hother : ∀ call x, y.running = some (call, x) →
      viewingHash libs call.viewingKey ≠ viewingHash libs viewingKey) :
    scanProgress y'.store (viewingHash libs viewingKey) =
        scanProgress y.store (viewingHash libs viewingKey) ∧
      ∀ k : Bytes, (viewingHash libs viewingKey).val <+: k →
        (k ∈ y'.store .walletRelevantTxs ↔ k ∈ y.store .walletRelevantTxs) := by
  cases h with
  | @block s' ids' d ledgerStateKey window hroom hblock =>
      have happends := appends_of_runs hs.run (hs.run.step d ledgerStateKey window hroom hblock)
        (writeBlock_wallets hblock)
      refine ⟨happends.progress _, fun k _ => ?_⟩
      show k ∈ s' .walletRelevantTxs ↔ k ∈ y.store .walletRelevantTxs
      rw [happends.marks]
  | advance hrunning hadvance =>
      obtain ⟨-, -, hguard⟩ := hs.running _ _ hrunning
      rcases (hguard.advances Appends.refl hadvance).1 with rfl | hcommits
      · exact ⟨rfl, fun k _ => Iff.rfl⟩
      · exact hcommits.others _ (Ne.symm (hother _ _ hrunning))
  | call call hidle htarget => exact ⟨rfl, fun k _ => Iff.rfl⟩
  | returned hrunning => exact ⟨rfl, fun k _ => Iff.rfl⟩
  | failed hrunning => exact ⟨rfl, fun k _ => Iff.rfl⟩
  | storeError => exact ⟨rfl, fun k _ => Iff.rfl⟩
  | crash => exact ⟨rfl, fun k _ => Iff.rfl⟩

theorem Step.progress (h : Step libs y y') (hs : Serving libs y) (viewingKey : ByteArr 32) :
    scanProgress y.store (viewingHash libs viewingKey) ≤
      scanProgress y'.store (viewingHash libs viewingKey) := by
  by_cases hother : ∀ call x, y.running = some (call, x) →
      viewingHash libs call.viewingKey ≠ viewingHash libs viewingKey
  · exact (h.others hs hother).1.ge
  · push Not at hother
    obtain ⟨call, x, hrunning, hsame⟩ := hother
    cases h with
    | block d ledgerStateKey window hroom hblock =>
        have happends := appends_of_runs hs.run (hs.run.step d ledgerStateKey window hroom hblock)
          (writeBlock_wallets hblock)
        exact (happends.progress _).ge
    | advance hrunning' hadvance =>
        obtain ⟨-, -, hguard⟩ := hs.running _ _ hrunning'
        obtain ⟨rfl, rfl⟩ := Prod.mk.inj (Option.some.inj (hrunning.symm.trans hrunning'))
        rw [← hsame]
        rcases (hguard.advances Appends.refl hadvance).1 with rfl | hcommits
        · exact Nat.le_refl _
        · exact hcommits.progress
    | call call' hidle htarget => exact Nat.le_refl _
    | returned hrunning => exact Nat.le_refl _
    | failed hrunning => exact Nat.le_refl _
    | storeError => exact Nat.le_refl _
    | crash => exact Nat.le_refl _

theorem progress_reach (hs : Serving libs y) (h : ReflTransGen (Step libs) y y')
    (viewingKey : ByteArr 32) :
    scanProgress y.store (viewingHash libs viewingKey) ≤
      scanProgress y'.store (viewingHash libs viewingKey) := by
  induction h with
  | refl => exact Nat.le_refl _
  | tail hreach hstep ih => exact ih.trans (hstep.progress (hs.reach hreach) viewingKey)

theorem Step.calls (h : Step libs y y') : y.calls <+: y'.calls := by
  cases h with
  | call call hidle htarget => exact List.prefix_append _ _
  | _ => exact List.prefix_refl _

/-- What the store says about a key. -/
structure KeyState (libs : WalletLibs) (y : System) (viewingKey : ByteArr 32) : Prop where
  exact : Exact libs y.store viewingKey
  stored : scanProgress y.store (viewingHash libs viewingKey) ≤ y.ids.nextTxId
  returned : ∀ call ∈ y.returned, call.viewingKey = viewingKey →
    call.targetTx ≤ scanProgress y.store (viewingHash libs viewingKey)
  asked : scanProgress y.store (viewingHash libs viewingKey) = 0 ∨ ∃ call ∈ y.calls,
    call.viewingKey = viewingKey ∧
      scanProgress y.store (viewingHash libs viewingKey) ≤ call.targetTx

theorem Exact.others (h : Exact libs s viewingKey) (hframe : ∀ p, p ∉ walletParts → s' p = s p)
    (hprogress : scanProgress s' (viewingHash libs viewingKey) =
      scanProgress s (viewingHash libs viewingKey))
    (hmarks : ∀ k : Bytes, (viewingHash libs viewingKey).val <+: k →
      (k ∈ s' .walletRelevantTxs ↔ k ∈ s .walletRelevantTxs)) : Exact libs s' viewingKey := by
  rw [viewingHash] at hprogress hmarks
  constructor
  · intro txId hlt
    rw [hprogress] at hlt
    obtain ⟨accepted, hscan, hmarked⟩ := h.verdict txId hlt
    refine ⟨accepted, (scanTransaction_congr hframe txId).trans hscan, hmarked.trans ?_⟩
    exact (hmarks _ (List.prefix_append _ _)).symm
  · intro k hk hunder
    rw [hprogress]
    exact h.below k ((hmarks k hunder).mp hk) hunder

theorem KeyState.start : KeyState libs .start viewingKey := by
  have hzero : scanProgress System.start.store (viewingHash libs viewingKey) = 0 := by
    simp [System.start, scanProgress, fresh_other]
  refine ⟨⟨?_, ?_⟩, ?_, ?_, .inl hzero⟩
  · intro txId hlt
    rw [show libs.sha256 viewingKey.val = viewingHash libs viewingKey from rfl, hzero] at hlt
    exact absurd hlt (Nat.not_lt_zero _)
  · intro k hk
    simp [System.start, fresh_other] at hk
  · rw [hzero]
    exact Nat.zero_le _
  · exact fun call hmem => absurd hmem List.not_mem_nil

theorem Step.keyState (h : Step libs y y') (hs : Serving libs y) (hk : KeyState libs y viewingKey)
    (hdistinct : Distinct libs viewingKey y'.calls) : KeyState libs y' viewingKey := by
  cases h with
  | block d ledgerStateKey window hroom hblock =>
      have hrun := hs.run.step d ledgerStateKey window hroom hblock
      have happends := appends_of_runs hs.run hrun (writeBlock_wallets hblock)
      have hprogress := happends.progress (viewingHash libs viewingKey)
      refine ⟨hk.exact.appends happends, ?_, ?_, ?_⟩
      · rw [hprogress]
        exact hk.stored.trans (nextTxId_grown hs.run hrun)
      · rw [hprogress]
        exact hk.returned
      · rw [hprogress]
        exact hk.asked
  | call call hidle htarget =>
      refine ⟨hk.exact, hk.stored, hk.returned, hk.asked.imp_right ?_⟩
      rintro ⟨call', hmem, hasked⟩
      exact ⟨call', List.mem_append_left _ hmem, hasked⟩
  | @advance call x x' s' hrunning hadvance =>
      obtain ⟨hmem, htarget, hguard⟩ := hs.running _ _ hrunning
      rcases (hguard.advances Appends.refl hadvance).1 with rfl | hcommits
      · exact ⟨hk.exact, hk.stored, hk.returned, hk.asked⟩
      by_cases hsame : call.viewingKey = viewingKey
      · subst hsame
        refine ⟨hcommits.exact (htarget.trans (nextTxId_le hs.run)) hk.exact,
          hcommits.target.trans htarget, ?_, .inr ⟨call, hmem, rfl, hcommits.target⟩⟩
        exact fun call' hmem' hkey => (hk.returned call' hmem' hkey).trans hcommits.progress
      · have hne : viewingHash libs viewingKey ≠ libs.sha256 call.viewingKey.val :=
          fun he => hsame (hdistinct call hmem he.symm)
        obtain ⟨hprogress, hmarks⟩ := hcommits.others _ hne
        refine ⟨Exact.others hk.exact hcommits.frame hprogress hmarks, ?_, ?_, ?_⟩
        · rw [hprogress]
          exact hk.stored
        · rw [hprogress]
          exact hk.returned
        · rw [hprogress]
          exact hk.asked
  | @returned call hrunning =>
      obtain ⟨-, -, hguard⟩ := hs.running _ _ hrunning
      refine ⟨hk.exact, hk.stored, fun call' hmem hkey => ?_, hk.asked⟩
      rcases List.mem_append.mp hmem with hmem | hmem
      · exact hk.returned call' hmem hkey
      · obtain rfl := List.mem_singleton.mp hmem
        rw [← hkey]
        exact hguard.done Appends.refl
  | failed hrunning => exact ⟨hk.exact, hk.stored, hk.returned, hk.asked⟩
  | storeError => exact ⟨hk.exact, hk.stored, hk.returned, hk.asked⟩
  | crash =>
      refine ⟨hk.exact, ?_, hk.returned, hk.asked⟩
      rw [counters_load hs.run]
      exact hk.stored

theorem Reachable.keyState (h : Reachable libs y) (hdistinct : Distinct libs viewingKey y.calls) :
    KeyState libs y viewingKey := by
  induction h with
  | refl => exact KeyState.start
  | tail hreach hstep ih =>
      have hbefore : Distinct libs viewingKey _ :=
        fun call hmem => hdistinct call (hstep.calls.subset hmem)
      exact hstep.keyState (Reachable.serving hreach) (ih hbefore) hdistinct

theorem scan_alone {call : ScanCall} (hidle : y.running = none)
    (htarget : call.targetTx ≤ y.ids.nextTxId)
    (hscan : scanWalletRelevance libs y.store (viewingHash libs call.viewingKey) call.viewingKey
      call.targetTx = .ok s') :
    ReflTransGen (Step libs) y { y with
      store := s'
      calls := y.calls ++ [call]
      returned := y.returned ++ [call] } := by
  have hrun : (call.program libs).run y.store = (.ok (), s') := (scanRelevance_run _).mpr hscan
  have hsteps := (advances_of_run hrun).lift (fun p : Script Store String Unit × Store =>
      ({ y with running := some (call, p.1), store := p.2, calls := y.calls ++ [call] } : System))
    (fun p q hpq => (Step.advance rfl hpq : Step libs
      { y with running := some (call, p.1), store := p.2, calls := y.calls ++ [call] } _))
  have hreturned : Step libs
      { y with running := some (call, .done ()), store := s', calls := y.calls ++ [call] } _ :=
    Step.returned rfl
  refine .head (.call call hidle htarget) (hsteps.trans (.single ?_))
  rw [hidle]
  exact hreturned

section Results

/-- The stored marks of a key are exactly the accepted transactions below its
progress. -/
structure RelevanceExact (libs : WalletLibs) (y : System) (viewingKey : ByteArr 32) : Prop where
  marks : ∀ k : Bytes, (viewingHash libs viewingKey).val <+: k →
    (k ∈ y.store .walletRelevantTxs ↔ ∃ txId,
      txId < scanProgress y.store (viewingHash libs viewingKey) ∧
        Accepted libs y.store viewingKey txId ∧
        k = walletRelevanceKey (viewingHash libs viewingKey) txId)
  above : ∀ txId, scanProgress y.store (viewingHash libs viewingKey) ≤ txId → txId < 2 ^ 64 →
    walletRelevanceKey (viewingHash libs viewingKey) txId ∉ y.store .walletRelevantTxs
  stored : scanProgress y.store (viewingHash libs viewingKey) ≤ y.ids.nextTxId
  returned : ∀ call ∈ y.returned, call.viewingKey = viewingKey →
    call.targetTx ≤ scanProgress y.store (viewingHash libs viewingKey)

structure ScannedTo (y : System) (viewingKey : ByteArr 32) (targetTx : Nat) : Prop where
  returned : ∃ call ∈ y.returned, call.viewingKey = viewingKey ∧ call.targetTx = targetTx
  highest : ∀ call ∈ y.calls, call.viewingKey = viewingKey → call.targetTx ≤ targetTx

theorem KeyState.relevanceExact (hs : Serving libs y) (hk : KeyState libs y viewingKey) :
    RelevanceExact libs y viewingKey := by
  have hsize := hk.stored.trans (nextTxId_le hs.run)
  refine ⟨fun k hunder => ?_, fun txId hle hlt hmem => ?_, hk.stored, hk.returned⟩
  · constructor
    · intro hmem
      obtain ⟨txId, hlt, rfl⟩ := hk.exact.below k hmem hunder
      obtain ⟨accepted, hscan, hmarked⟩ := hk.exact.verdict txId hlt
      rw [hmarked.mpr hmem] at hscan
      exact ⟨txId, hlt, accepted_iff.mpr hscan, rfl⟩
    · rintro ⟨txId, hlt, haccepted, rfl⟩
      obtain ⟨accepted, hscan, hmarked⟩ := hk.exact.verdict txId hlt
      rw [accepted_iff.mp haccepted] at hscan
      exact hmarked.mp (Except.ok.inj hscan).symm
  · obtain ⟨i, hi, hkey⟩ := hk.exact.below _ hmem (List.prefix_append _ _)
    have hi' : i < scanProgress y.store (viewingHash libs viewingKey) := hi
    obtain ⟨-, rfl⟩ := prefixedU64Key_injective hlt (by omega) hkey
    omega

theorem KeyState.scannedTo (hk : KeyState libs y viewingKey) {targetTx : Nat}
    (h : ScannedTo y viewingKey targetTx) :
    scanProgress y.store (viewingHash libs viewingKey) = targetTx := by
  obtain ⟨call, hmem, hkey, htarget⟩ := h.returned
  have hlow := hk.returned call hmem hkey
  rcases hk.asked with hzero | ⟨call', hmem', hkey', hasked⟩
  · omega
  · have hhigh := h.highest call' hmem' hkey'
    omega

/-- The marks of a key depend on its progress only, not on the calls that led to it. -/
theorem KeyState.same_marks {y₁ y₂ : System} (hs₁ : Serving libs y₁) (hs₂ : Serving libs y₂)
    (hk₁ : KeyState libs y₁ viewingKey) (hk₂ : KeyState libs y₂ viewingKey)
    (hchain : y₁.blocks <+: y₂.blocks)
    (hsame : scanProgress y₁.store (viewingHash libs viewingKey) =
      scanProgress y₂.store (viewingHash libs viewingKey)) (k : Bytes)
    (hunder : (viewingHash libs viewingKey).val <+: k) :
    k ∈ y₁.store .walletRelevantTxs ↔ k ∈ y₂.store .walletRelevantTxs := by
  obtain ⟨more, hmore⟩ := hchain
  have hrun₂ : Run (y₁.blocks ++ more) y₂.store y₂.ids := hmore ▸ hs₂.run
  rw [(hk₁.relevanceExact hs₁).marks k hunder, (hk₂.relevanceExact hs₂).marks k hunder, ← hsame]
  refine exists_congr fun txId => and_congr_right fun hlt => and_congr_left fun _ => ?_
  obtain ⟨accepted, hscan, -⟩ := hk₁.exact.verdict txId hlt
  rw [accepted_iff, accepted_iff, hscan,
    scanTransaction_kept (txs_kept hs₁.run hrun₂) (indices_kept hs₁.run hrun₂) hscan]

/-- The incremental scan is exact, whatever blocks, errors and crashes come
between its batches. -/
theorem scans_exact (libs : WalletLibs) (viewingKey : ByteArr 32) (y : System)
    (h : Reachable libs y) (hdistinct : Distinct libs viewingKey y.calls) :
    RelevanceExact libs y viewingKey ∧
    (∀ y', ReflTransGen (Step libs) y y' →
      scanProgress y.store (viewingHash libs viewingKey) ≤
        scanProgress y'.store (viewingHash libs viewingKey)) ∧
    (∀ y', Step libs y y' →
      (∀ call x, y.running = some (call, x) → call.viewingKey ≠ viewingKey) →
      scanProgress y'.store (viewingHash libs viewingKey) =
          scanProgress y.store (viewingHash libs viewingKey) ∧
        ∀ k : Bytes, (viewingHash libs viewingKey).val <+: k →
          (k ∈ y'.store .walletRelevantTxs ↔ k ∈ y.store .walletRelevantTxs)) ∧
    (∀ y' targetTx, Reachable libs y' → Distinct libs viewingKey y'.calls →
      y.blocks <+: y'.blocks → ScannedTo y viewingKey targetTx → ScannedTo y' viewingKey targetTx →
      ∀ k : Bytes, (viewingHash libs viewingKey).val <+: k →
        (k ∈ y.store .walletRelevantTxs ↔ k ∈ y'.store .walletRelevantTxs)) := by
  have hs := h.serving
  have hk := h.keyState hdistinct
  refine ⟨hk.relevanceExact hs, fun y' hreach => progress_reach hs hreach viewingKey, ?_, ?_⟩
  · intro y' hstep hother
    refine hstep.others hs fun call x hrunning hsame => ?_
    exact hother call x hrunning (hdistinct call (hs.running call x hrunning).1 hsame)
  · intro y' targetTx h' hdistinct' hchain hscanned hscanned' k hunder
    have hk' := h'.keyState hdistinct'
    refine hk.same_marks hs h'.serving hk' hchain ?_ k hunder
    rw [hk.scannedTo hscanned, hk'.scannedTo hscanned']

end Results

section Samples

open SyncDelivery

def sampleCall : ScanCall := ⟨sampleViewingKey, 2⟩

def indexedSystem : System := ⟨sampleBlocks, sampleStore.1, sampleStore.2, none, [], []⟩

theorem indexedSystem_reachable : Reachable sampleLibs indexedSystem :=
  .single (Step.block (y := .start) _ [] [] (by decide +kernel)
    (ok_of_toBool (by decide +kernel) (fresh, Counters.load fresh)))

/-- Both transactions of the first block, marked by a scan to its end. -/
theorem scans_exact_sample : ∃ y, Reachable sampleLibs y ∧ y.returned = [sampleCall] ∧
    Distinct sampleLibs sampleViewingKey y.calls ∧ RelevanceExact sampleLibs y sampleViewingKey := by
  obtain ⟨s', hscan⟩ : ∃ s', scanWalletRelevance sampleLibs indexedSystem.store
      (viewingHash sampleLibs sampleCall.viewingKey) sampleCall.viewingKey sampleCall.targetTx =
        .ok s' :=
    ⟨_, ok_of_toBool (by decide +kernel) fresh⟩
  have hreach := indexedSystem_reachable.trans
    (scan_alone rfl (by decide +kernel) hscan)
  have hdistinct : Distinct sampleLibs sampleViewingKey [sampleCall] := by
    intro call hmem _
    rw [List.mem_singleton.mp hmem]
    rfl
  exact ⟨_, hreach, rfl, hdistinct, (scans_exact sampleLibs sampleViewingKey _ hreach hdistinct).1⟩

end Samples

end Nightfrost.ScanCalls
