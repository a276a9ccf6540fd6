import Nightfrost.CurrentState
import Nightfrost.DustBackfill
import Nightfrost.LatestEntry

namespace Nightfrost.DustStatus

open ByteOrder Tables Partitions Domain Schema WriteBlock MovingStore Api ExceptFold BlockStep BlockRun
  Timeline Cursors PagedWalks Listings KeyedListings Endpoints Registrations CurrentState DustBackfill
  LatestEntry

structure DustParameters where
  nightDustRatio : Nat
  generationDecayRate : Nat
  dustGracePeriod : Nat
  deriving DecidableEq

structure InitialDustParameters where
  nightDustRatio : Nat
  generationDecayRate : Nat
  dustGracePeriod : Int

abbrev ParameterLibs := LedgerVersion → InitialDustParameters

def dustParameters (libs : ParameterLibs) (ledgerVersion : LedgerVersion) : Except String DustParameters :=
  .ok {
    nightDustRatio := (libs ledgerVersion).nightDustRatio
    generationDecayRate := (libs ledgerVersion).generationDecayRate
    dustGracePeriod := ((libs ledgerVersion).dustGracePeriod % 2 ^ 64).toNat }

section Arithmetic

def u64Max : Nat := 2 ^ 64 - 1

def u128Max : Nat := 2 ^ 128 - 1

def saturatingMul (a b : Nat) : Nat := min (a * b) u128Max

/-- Seconds as milliseconds, in a build without overflow checks. -/
def toMs (secs : Nat) : Nat := secs * 1000 % 2 ^ 64

def elapsedSecondsSince (now earlier : Nat) : Nat := (now - earlier) / 1000

theorem saturatingMul_twice (a b c : Nat) : saturatingMul (saturatingMul a b) c = min (a * b * c) u128Max := by
  rw [saturatingMul, saturatingMul]
  rcases Nat.le_total (a * b) u128Max with h | h
  · rw [Nat.min_eq_left h]
  · rw [Nat.min_eq_right h]
    cases c with
    | zero => simp
    | succ c =>
        have hfirst : u128Max ≤ u128Max * (c + 1) := Nat.le_mul_of_pos_right _ (Nat.succ_pos c)
        have hsecond : u128Max ≤ a * b * (c + 1) := h.trans (Nat.le_mul_of_pos_right _ (Nat.succ_pos c))
        rw [Nat.min_eq_right hfirst, Nat.min_eq_right hsecond]

end Arithmetic

structure DustAmounts where
  nightBalance : Nat
  generationRate : Nat
  maxCapacity : Nat
  currentCapacity : Nat
  deriving DecidableEq

/-- The amounts of an active generation. "Now" is the timestamp of the latest
indexed block, in milliseconds. -/
def amountsOf (params : DustParameters) (info : DustGenerationInfo) (tip : Option Nat) : DustAmounts :=
  let generationRate := saturatingMul info.value params.generationDecayRate
  let maxCapacity := saturatingMul info.value params.nightDustRatio
  let now := tip.getD (toMs info.ctime)
  let elapsedSeconds := elapsedSecondsSince now (toMs info.ctime)
  { nightBalance := info.value
    generationRate
    maxCapacity
    currentCapacity := min (saturatingMul (saturatingMul info.value params.generationDecayRate)
      elapsedSeconds) maxCapacity }

structure DustGenerationStatusResponse where
  cardanoStakeKey : String
  registered : Bool
  dustAddress : Option String
  nightBalance : String
  generationRate : String
  currentCapacity : String
  maxCapacity : String
  deriving DecidableEq

/-- A registration that is not removed and valid, or has a live mapping. -/
def isRegistered (record : CnightRegistrationRecord) : Bool :=
  !(record.removedAtHeight.isSome || !(record.valid || record.utxoId.isSome))

def latestRegistration (rows : List (Bytes × CnightRegistrationRecord)) :
    Option (Bytes × CnightRegistrationRecord) :=
  latest (fun row => isRegistered row.2) (fun row => row.2.registeredAtHeight) rows

def isActive (owner : Bytes) (info : DustGenerationInfo) : Bool :=
  !(info.owner ≠ owner || info.dtime ≠ u64Max)

def nightUtxoHashOf (key : Bytes) : Bytes := key.drop (key.length - 32)

/-- One pass over the owner index: the record behind the key, kept if it is the latest. -/
def activeGeneration (owner : Bytes) (active : Option DustGenerationInfo) (entry : Bytes × Unit) :
    Handler (Option DustGenerationInfo) := do
  match ← query (fun s => (s .dustGeneration)[nightUtxoHashOf entry.1]?) with
  | none => .fail (.internal "missing dust generation record")
  | some record => pure (keepLatest (isActive owner) DustGenerationInfo.ctime active record.info)

def dustAmounts (libs : ParameterLibs) (owner : Bytes) : Handler DustAmounts := do
  let params ← liftExcept ((dustParameters libs .latest).mapError ApiError.internal)
  let entries ← query (fun s => scanPrefix (s .dustGenByOwner) owner)
  match ← entries.foldlM (activeGeneration owner) none with
  | none => pure ⟨0, 0, 0, 0⟩
  | some info =>
      let tip ← query tipTimestamp
      pure (amountsOf params info tip)

def statusResponse (stakeKey : ByteArr 29) (dustAddress : Option Bytes) (amounts : DustAmounts) :
    DustGenerationStatusResponse where
  cardanoStakeKey := hexEncode stakeKey.val
  registered := dustAddress.isSome
  dustAddress := dustAddress.map hexEncode
  nightBalance := toString amounts.nightBalance
  generationRate := toString amounts.generationRate
  currentCapacity := toString amounts.currentCapacity
  maxCapacity := toString amounts.maxCapacity

def dustGenerationStatus (addressLibs : AddressLibs) (libs : ParameterLibs) (stakeKey : String) :
    Handler (PointResponse DustGenerationStatusResponse) := do
  let stakeKey ← liftExcept (parseStakeKey addressLibs stakeKey)
  let rows ← query (fun s => scanPrefix (s .cnightRegistrations) stakeKey.val)
  match latestRegistration rows with
  | none => response (statusResponse stakeKey none ⟨0, 0, 0, 0⟩)
  | some registration =>
      let amounts ← dustAmounts libs registration.2.dustAddress
      response (statusResponse stakeKey (some registration.2.dustAddress) amounts)

section Index

/-- Whatever owner index and records a run leaves: a key of the index ends in
the hash of a record, and every record is indexed under its owner. -/
structure DustIndex (s : Store) : Prop where
  stored : ∀ k : Bytes, k ∈ s .dustGenByOwner →
    32 ≤ k.length ∧ ∃ record, (s .dustGeneration)[nightUtxoHashOf k]? = some record
  indexed : ∀ (k : Bytes) record, (s .dustGeneration)[k]? = some record →
    k.length = 32 ∧ record.info.owner ++ k ∈ s .dustGenByOwner

variable {blocks : List DerivedBlock} {s s' : Store} {ids : Counters} {owner : Bytes}

theorem nightUtxoHashOf_append (owner : Bytes) {hash : Bytes} (h : hash.length = 32) :
    nightUtxoHashOf (owner ++ hash) = hash := by
  rw [nightUtxoHashOf, List.length_append, h, Nat.add_sub_cancel, List.drop_left]

theorem DustIndex.congr (h : DustIndex s) (h₁ : s' .dustGeneration = s .dustGeneration)
    (h₂ : s' .dustGenByOwner = s .dustGenByOwner) : DustIndex s' where
  stored := by rw [h₁, h₂]; exact h.stored
  indexed := by rw [h₁, h₂]; exact h.indexed

theorem run_dustIndex (h : Run blocks s ids) : DustIndex s := by
  have hdusted := run_dusted h
  have hgeneration : s .dustGeneration = replay (logOf blocks).events .dustGeneration :=
    hdusted .dustGeneration (by decide)
  have howner : s .dustGenByOwner = replay (logOf blocks).events .dustGenByOwner :=
    hdusted .dustGenByOwner (by decide)
  constructor
  · intro k hk
    rw [howner, replay_owner] at hk
    obtain ⟨record, hrecord, info, hinfo, rfl⟩ := hk
    rw [nightUtxoHashOf_append _ info.nightUtxoHash.property, hgeneration, replay_generation]
    refine ⟨?_, ?_⟩
    · rw [List.length_append, ByteArr.length_val]
      exact Nat.le_add_left 32 _
    · have hmem : ⟨info, record.txId⟩ ∈
          (logOf blocks).events.filterMap (generationOf info.nightUtxoHash.val) := by
        refine List.mem_filterMap.mpr ⟨record, hrecord, ?_⟩
        rw [generationOf, hinfo, Option.bind_some, if_pos rfl]
      exact ⟨_, List.getLast?_eq_some_getLast (List.ne_nil_of_mem hmem)⟩
  · intro k record hget
    rw [hgeneration, replay_generation] at hget
    obtain ⟨event, hevent, hof⟩ := List.mem_filterMap.mp (List.mem_of_getLast? hget)
    obtain ⟨info, hinfo, hkey⟩ := Option.bind_eq_some_iff.mp hof
    by_cases hk : info.nightUtxoHash.val = k
    · rw [if_pos hk] at hkey
      obtain rfl := Option.some.inj hkey
      refine ⟨hk ▸ info.nightUtxoHash.property, ?_⟩
      rw [howner, replay_owner]
      exact ⟨event, hevent, info, hinfo, by rw [hk]⟩
    · rw [if_neg hk] at hkey
      cases hkey

structure ActiveOf (s : Store) (owner : Bytes) (info : DustGenerationInfo) : Prop where
  stored : ∃ (k : Bytes) (record : DustGenerationRecord), (s .dustGeneration)[k]? = some record ∧ record.info = info
  owner : info.owner = owner
  dtime : info.dtime = u64Max

theorem isActive_iff {info : DustGenerationInfo} :
    isActive owner info = true ↔ info.owner = owner ∧ info.dtime = u64Max := by
  simp [isActive]

def infoBehind (s : Store) (entry : Bytes × Unit) : Option DustGenerationInfo :=
  ((s .dustGeneration)[nightUtxoHashOf entry.1]?).map DustGenerationRecord.info

def scannedInfos (s : Store) (owner : Bytes) : List DustGenerationInfo :=
  (scanPrefix (s .dustGenByOwner) owner).filterMap (infoBehind s)

theorem mem_scannedInfos (h : DustIndex s) {info : DustGenerationInfo} :
    (info ∈ scannedInfos s owner ∧ isActive owner info = true) ↔ ActiveOf s owner info := by
  rw [isActive_iff]
  constructor
  · rintro ⟨hmem, howner, hdtime⟩
    obtain ⟨entry, -, hentry⟩ := List.mem_filterMap.mp hmem
    obtain ⟨record, hrecord, rfl⟩ := Option.map_eq_some_iff.mp hentry
    exact ⟨⟨_, record, hrecord, rfl⟩, howner, hdtime⟩
  · rintro ⟨⟨k, record, hrecord, rfl⟩, howner, hdtime⟩
    obtain ⟨hlen, hindexed⟩ := h.indexed k record hrecord
    rw [howner] at hindexed
    refine ⟨List.mem_filterMap.mpr ⟨(owner ++ k, ()), ?_, ?_⟩, howner, hdtime⟩
    · exact mem_scanPrefix.mpr ⟨mem_unit_iff.mp hindexed, List.prefix_append owner k⟩
    · rw [infoBehind, nightUtxoHashOf_append owner hlen, hrecord]
      rfl

theorem activeGeneration_at {entry : Bytes × Unit} {record : DustGenerationRecord}
    (h : (s .dustGeneration)[nightUtxoHashOf entry.1]? = some record) (active : Option DustGenerationInfo) :
    (activeGeneration owner active entry).at s =
      .ok (keepLatest (isActive owner) DustGenerationInfo.ctime active record.info) := by
  rw [activeGeneration, at_query_bind, h]
  rfl

theorem activeLoop_at (h : DustIndex s) (owner : Bytes) :
    ((scanPrefix (s .dustGenByOwner) owner).foldlM (activeGeneration owner) none).at s =
      .ok (latest (isActive owner) DustGenerationInfo.ctime (scannedInfos s owner)) := by
  have general : ∀ (entries : List (Bytes × Unit)) (active : Option DustGenerationInfo),
      (∀ e ∈ entries, e.1 ∈ s .dustGenByOwner) →
      (entries.foldlM (activeGeneration owner) active).at s =
        .ok ((entries.filterMap (infoBehind s)).foldl
          (keepLatest (isActive owner) DustGenerationInfo.ctime) active) := by
    intro entries
    induction entries with
    | nil => exact fun active _ => rfl
    | cons entry entries ih =>
        intro active hkeys
        obtain ⟨-, record, hrecord⟩ := h.stored entry.1 (hkeys entry List.mem_cons_self)
        have hsome : infoBehind s entry = some record.info := by rw [infoBehind, hrecord]; rfl
        rw [List.foldlM_cons, at_bind, activeGeneration_at hrecord, List.filterMap_cons_some hsome,
          List.foldl_cons]
        exact ih _ fun e he => hkeys e (List.mem_cons_of_mem _ he)
  exact general _ none fun e he => mem_unit_iff.mpr (mem_scanPrefix.mp he).1

end Index

section Status

variable {s s' : Store} {owner : Bytes} {params : DustParameters} {stakeKey : ByteArr 29}
  {row : Bytes × CnightRegistrationRecord}

structure RegisteredRow (s : Store) (stakeKey : ByteArr 29) (row : Bytes × CnightRegistrationRecord) : Prop where
  stored : (s .cnightRegistrations)[row.1]? = some row.2
  under : stakeKey.val <+: row.1
  kept : row.2.removedAtHeight = none
  live : row.2.valid = true ∨ row.2.utxoId.isSome = true

structure NewestRow (s : Store) (stakeKey : ByteArr 29) (row : Bytes × CnightRegistrationRecord) : Prop where
  registered : RegisteredRow s stakeKey row
  newest : ∀ other, RegisteredRow s stakeKey other →
    other.2.registeredAtHeight < row.2.registeredAtHeight ∨
      (other.2.registeredAtHeight = row.2.registeredAtHeight ∧ (compare other.1 row.1).isLE)

/-- The amounts of a dust address: those of an active generation of the greatest
creation time, over the integers up to the range of `u128`, and none without one. -/
structure AmountsFor (params : DustParameters) (s : Store) (owner : Bytes) (amounts : DustAmounts) : Prop where
  idle : (¬ ∃ info, ActiveOf s owner info) → amounts = ⟨0, 0, 0, 0⟩
  active : (∃ info, ActiveOf s owner info) → ∃ info, ActiveOf s owner info ∧
    (∀ other, ActiveOf s owner other → other.ctime ≤ info.ctime) ∧
    toMs info.ctime = info.ctime * 1000 ∧ amounts.nightBalance = info.value ∧
    amounts.generationRate = min (info.value * params.generationDecayRate) u128Max ∧
    amounts.maxCapacity = min (info.value * params.nightDustRatio) u128Max ∧
    amounts.currentCapacity = min (min (info.value * params.generationDecayRate *
      (((tipTimestamp s).getD (info.ctime * 1000) - info.ctime * 1000) / 1000))
      (info.value * params.nightDustRatio)) u128Max
  capped : amounts.currentCapacity ≤ amounts.maxCapacity

structure StatusOf (params : DustParameters) (s : Store) (stakeKey : ByteArr 29)
    (answer : DustGenerationStatusResponse) : Prop where
  registered : answer.registered = true ↔ ∃ row, RegisteredRow s stakeKey row
  listed : (∃ row, RegisteredRow s stakeKey row) ↔ ∃ row : Bytes × CnightRegistrationRecord,
    (s .cnightRegistrations)[row.1]? = some row.2 ∧ stakeKey.val <+: row.1 ∧
      (RegistrationResponse.from row.2).valid = true
  absent : (¬ ∃ row, RegisteredRow s stakeKey row) → answer = statusResponse stakeKey none ⟨0, 0, 0, 0⟩
  selected : (∃ row, RegisteredRow s stakeKey row) → ∃ row amounts, NewestRow s stakeKey row ∧
    AmountsFor params s row.2.dustAddress amounts ∧
    answer = statusResponse stakeKey (some row.2.dustAddress) amounts

theorem isRegistered_iff {record : CnightRegistrationRecord} : isRegistered record = true ↔
    record.removedAtHeight = none ∧ (record.valid = true ∨ record.utxoId.isSome = true) := by
  simp [isRegistered]

theorem registeredRow_iff : RegisteredRow s stakeKey row ↔
    row ∈ scanPrefix (s .cnightRegistrations) stakeKey.val ∧ isRegistered row.2 = true := by
  rw [isRegistered_iff, mem_scanPrefix]
  constructor
  · rintro ⟨hstored, hunder, hkept, hlive⟩
    exact ⟨⟨hstored, hunder⟩, hkept, hlive⟩
  · rintro ⟨⟨hstored, hunder⟩, hkept, hlive⟩
    exact ⟨hstored, hunder, hkept, hlive⟩

theorem latestRegistration_newest
    (h : latestRegistration (scanPrefix (s .cnightRegistrations) stakeKey.val) = some row) :
    NewestRow s stakeKey row := by
  have hlatest := latest_isLatest h
  refine ⟨registeredRow_iff.mpr ⟨hlatest.mem, hlatest.holds⟩, fun other hother => ?_⟩
  obtain ⟨hmem, hregistered⟩ := registeredRow_iff.mp hother
  rcases Nat.lt_or_eq_of_le (hlatest.le hmem hregistered) with hlt | heq
  · exact .inl hlt
  · refine .inr ⟨heq, ?_⟩
    rcases hlatest.tie (scanPrefix_sorted _ _) hmem hregistered heq with rfl | hlt
    · rw [Std.ReflOrd.compare_self]
      rfl
    · rw [hlt]
      rfl

/-- A listed row is valid just when it counts as a registration, since no row of
a run is valid and removed. -/
theorem valid_iff {key : Bytes} {record : CnightRegistrationRecord} (h : RowOf key record) :
    (RegistrationResponse.from record).valid = true ↔
      record.removedAtHeight = none ∧ (record.valid = true ∨ record.utxoId.isSome = true) := by
  have hlive := h.live
  rw [RegistrationResponse.from, Bool.or_eq_true, Bool.and_eq_true, Option.isNone_iff_eq_none]
  constructor
  · rintro (hvalid | ⟨hmapped, hkept⟩)
    · exact ⟨hlive hvalid, .inl hvalid⟩
    · exact ⟨hkept, .inr hmapped⟩
  · rintro ⟨hkept, hvalid | hmapped⟩
    · exact .inl hvalid
    · exact .inr ⟨hmapped, hkept⟩

theorem toMs_eq {secs : Nat} (h : secs * 1000 < 2 ^ 64) : toMs secs = secs * 1000 := Nat.mod_eq_of_lt h

theorem currentCapacity_eq (params : DustParameters) (info : DustGenerationInfo) (tip : Option Nat) :
    (amountsOf params info tip).currentCapacity = min (min (info.value * params.generationDecayRate *
      ((tip.getD (toMs info.ctime) - toMs info.ctime) / 1000)) (info.value * params.nightDustRatio)) u128Max := by
  change min (saturatingMul (saturatingMul _ _) _) (min _ u128Max) = _
  rw [saturatingMul_twice, min_min_min_comm, min_self]
  rfl

theorem amountsOf_capped (params : DustParameters) (info : DustGenerationInfo) (tip : Option Nat) :
    (amountsOf params info tip).currentCapacity ≤ (amountsOf params info tip).maxCapacity :=
  Nat.min_le_right _ _

theorem amountsOf_mono (params : DustParameters) (info : DustGenerationInfo) {m m' : Nat} (h : m ≤ m') :
    (amountsOf params info (some m)).currentCapacity ≤ (amountsOf params info (some m')).currentCapacity := by
  rw [currentCapacity_eq, currentCapacity_eq]
  have helapsed : (m - toMs info.ctime) / 1000 ≤ (m' - toMs info.ctime) / 1000 :=
    Nat.div_le_div_right (Nat.sub_le_sub_right h _)
  have hgrown := Nat.mul_le_mul_left (info.value * params.generationDecayRate) helapsed
  exact min_le_min_right _ (min_le_min_right _ hgrown)

def amountsIn (params : DustParameters) (s : Store) (owner : Bytes) : DustAmounts :=
  match latest (isActive owner) DustGenerationInfo.ctime (scannedInfos s owner) with
  | none => ⟨0, 0, 0, 0⟩
  | some info => amountsOf params info (tipTimestamp s)

theorem amountsIn_for (h : DustIndex s)
    (hctime : ∀ (k : Bytes) (record : DustGenerationRecord), (s .dustGeneration)[k]? = some record →
      record.info.ctime * 1000 < 2 ^ 64) (params : DustParameters) (owner : Bytes) :
    AmountsFor params s owner (amountsIn params s owner) := by
  rw [amountsIn]
  cases hlatest : latest (isActive owner) DustGenerationInfo.ctime (scannedInfos s owner) with
  | none =>
      have hnone : ¬ ∃ info, ActiveOf s owner info := by
        rintro ⟨info, hinfo⟩
        obtain ⟨hmem, hactive⟩ := (mem_scannedInfos h).mpr hinfo
        exact latest_none_iff.mp hlatest info hmem hactive
      exact ⟨fun _ => rfl, fun hsome => absurd hsome hnone, Nat.le_refl 0⟩
  | some info =>
      have his := latest_isLatest hlatest
      have hactive := (mem_scannedInfos h).mp ⟨his.mem, his.holds⟩
      obtain ⟨k, record, hrecord, hinfo⟩ := hactive.stored
      have hms : toMs info.ctime = info.ctime * 1000 := toMs_eq (hinfo ▸ hctime k record hrecord)
      have hcurrent := currentCapacity_eq params info (tipTimestamp s)
      rw [hms] at hcurrent
      refine ⟨fun hnone => absurd ⟨info, hactive⟩ hnone, fun _ => ?_, amountsOf_capped _ _ _⟩
      refine ⟨info, hactive, fun other hother => ?_, hms, rfl, rfl, rfl, hcurrent⟩
      obtain ⟨hmem, hholds⟩ := (mem_scannedInfos h).mpr hother
      exact his.le hmem hholds

def statusIn (params : DustParameters) (s : Store) (stakeKey : ByteArr 29) : DustGenerationStatusResponse :=
  match latestRegistration (scanPrefix (s .cnightRegistrations) stakeKey.val) with
  | none => statusResponse stakeKey none ⟨0, 0, 0, 0⟩
  | some row => statusResponse stakeKey (some row.2.dustAddress) (amountsIn params s row.2.dustAddress)

end Status

section Results

variable {blocks : List DerivedBlock} {s s' : Store} {ids : Counters} {params : DustParameters}
  {stakeKey : ByteArr 29} {addressLibs : AddressLibs} {libs : ParameterLibs} {input : String}

theorem dustAmounts_at (h : DustIndex s) (hparams : dustParameters libs .latest = .ok params) (owner : Bytes) :
    (dustAmounts libs owner).at s = .ok (amountsIn params s owner) := by
  rw [dustAmounts, hparams]
  change (query _ >>= _ : Handler _).at s = _
  rw [at_query_bind, at_bind, activeLoop_at h, amountsIn]
  cases latest (isActive owner) DustGenerationInfo.ctime (scannedInfos s owner) <;> rfl

theorem dustGenerationStatus_at (h : DustIndex s) (hparams : dustParameters libs .latest = .ok params)
    (hparse : parseStakeKey addressLibs input = .ok stakeKey) :
    (dustGenerationStatus addressLibs libs input).at s = (response (statusIn params s stakeKey)).at s := by
  rw [dustGenerationStatus, hparse]
  change (query _ >>= _ : Handler _).at s = _
  rw [at_query_bind, statusIn]
  cases latestRegistration (scanPrefix (s .cnightRegistrations) stakeKey.val) with
  | none => rfl
  | some row =>
      dsimp only
      rw [at_bind, dustAmounts_at h hparams]
      rfl

theorem response_at {T : Type} (hrun : Run blocks s ids) (hc : Consecutive blocks) (results : T) :
    ∃ tip, (response results).at s = .ok ⟨results, tip⟩ := by
  obtain ⟨answer, t', hanswer, rfl⟩ := (growing_still hrun hc).response results 0
  refine ⟨answer.tip, ?_⟩
  rw [← run_const _ s 0, hanswer]
  rfl

theorem response_results {T : Type} {results : T} {answer : PointResponse T}
    (h : (response results).at s = .ok answer) : answer.results = results := by
  rw [response, at_bind] at h
  obtain ⟨tip, -, hanswer⟩ := bind_ok.mp h
  obtain rfl := Except.ok.inj hanswer
  rfl

theorem statusIn_of (hrun : Run blocks s ids)
    (hctime : ∀ (k : Bytes) (record : DustGenerationRecord), (s .dustGeneration)[k]? = some record →
      record.info.ctime * 1000 < 2 ^ 64) (params : DustParameters) (stakeKey : ByteArr 29) :
    StatusOf params s stakeKey (statusIn params s stakeKey) := by
  have hlisted : (∃ row, RegisteredRow s stakeKey row) ↔ ∃ row : Bytes × CnightRegistrationRecord,
      (s .cnightRegistrations)[row.1]? = some row.2 ∧ stakeKey.val <+: row.1 ∧
        (RegistrationResponse.from row.2).valid = true := by
    apply exists_congr
    intro row
    constructor
    · rintro ⟨hstored, hunder, hkept, hlive⟩
      exact ⟨hstored, hunder, (valid_iff (run_registrations hrun row.1 row.2 hstored)).mpr ⟨hkept, hlive⟩⟩
    · rintro ⟨hstored, hunder, hvalid⟩
      obtain ⟨hkept, hlive⟩ := (valid_iff (run_registrations hrun row.1 row.2 hstored)).mp hvalid
      exact ⟨hstored, hunder, hkept, hlive⟩
  rw [statusIn]
  cases hlatest : latestRegistration (scanPrefix (s .cnightRegistrations) stakeKey.val) with
  | none =>
      have hnone : ¬ ∃ row, RegisteredRow s stakeKey row := by
        rintro ⟨row, hrow⟩
        obtain ⟨hmem, hregistered⟩ := registeredRow_iff.mp hrow
        exact latest_none_iff.mp hlatest row hmem hregistered
      exact ⟨iff_of_false Bool.false_ne_true hnone, hlisted, fun _ => rfl, fun hsome => absurd hsome hnone⟩
  | some row =>
      have hnewest := latestRegistration_newest hlatest
      have hsome : ∃ row, RegisteredRow s stakeKey row := ⟨row, hnewest.registered⟩
      refine ⟨iff_of_true rfl hsome, hlisted, fun hnone => absurd hsome hnone, fun _ => ?_⟩
      exact ⟨row, _, hnewest, amountsIn_for (run_dustIndex hrun) hctime params _, rfl⟩

theorem statusIn_mono (params : DustParameters) (stakeKey : ByteArr 29)
    (h₁ : s' .cnightRegistrations = s .cnightRegistrations) (h₂ : s' .dustGeneration = s .dustGeneration)
    (h₃ : s' .dustGenByOwner = s .dustGenByOwner) {m m' : Nat} (hm : tipTimestamp s = some m)
    (hm' : tipTimestamp s' = some m') (hle : m ≤ m') : ∃ address amounts amounts',
      statusIn params s stakeKey = statusResponse stakeKey address amounts ∧
      statusIn params s' stakeKey = statusResponse stakeKey address amounts' ∧
      amounts.currentCapacity ≤ amounts'.currentCapacity := by
  rw [statusIn, statusIn, h₁]
  cases latestRegistration (scanPrefix (s .cnightRegistrations) stakeKey.val) with
  | none => exact ⟨none, _, _, rfl, rfl, Nat.le_refl _⟩
  | some row =>
      refine ⟨some row.2.dustAddress, _, _, rfl, rfl, ?_⟩
      have hscanned : scannedInfos s' row.2.dustAddress = scannedInfos s row.2.dustAddress := by
        have hbehind : infoBehind s' = infoBehind s := by
          funext entry
          rw [infoBehind, infoBehind, h₂]
        rw [scannedInfos, scannedInfos, h₃, hbehind]
      rw [amountsIn, amountsIn, hscanned, hm, hm']
      cases latest (isActive row.2.dustAddress) DustGenerationInfo.ctime (scannedInfos s row.2.dustAddress) with
      | none => exact Nat.le_refl _
      | some info => exact amountsOf_mono params info hle

/-- Over a store that stands still, a walk lists exactly the rows of its stake key. -/
theorem walk_lists (hrun : Run blocks s ids) (hc : Consecutive blocks) {codec : CursorCodec} (hl : codec.Lawful)
    (hparse : parseStakeKey addressLibs input = .ok stakeKey) {count : Nat} {order : Order} {delay : Nat → Nat}
    {t₀ : Nat} {pages : List (ApiResponse (List RegistrationResponse))} (hcount : 1 ≤ count ∧ count ≤ 5000)
    (hne : blocks ≠ []) (hw : Walk (fun _ => s) (fun cursor => dustRegistrationsByStake addressLibs codec input
      ⟨count, order, cursor, none⟩) delay t₀ none pages) (answer : RegistrationResponse) :
    answer ∈ pages.flatMap ApiResponse.results ↔ ∃ row : Bytes × CnightRegistrationRecord,
      (s .cnightRegistrations)[row.1]? = some row.2 ∧ stakeKey.val <+: row.1 ∧ answer = .from row.2 := by
  rw [dustRegistrationsByStake_eq hparse] at hw
  have hgrowing := growing_still hrun hc
  have hstable := (registrationListing_serves hgrowing stakeKey.val).stable hl hgrowing
  obtain ⟨hanswered, hkept⟩ := hstable.rows hcount hne hw
  constructor
  · intro hmem
    obtain ⟨u, row, hget, hunder, hshown⟩ := hanswered answer hmem
    exact ⟨row, hget, hunder, hshown.1⟩
  · rintro ⟨row, hget, hunder, rfl⟩
    obtain ⟨answer', hmem, u, hshown⟩ := hkept row (fun _ => hget) hunder
    rwa [← hshown.1]

/-- The status of a stake key: which rows it is made of and what capacity it
computes, in agreement with the listing of the registrations. -/
theorem dust_status (addressLibs : AddressLibs) (libs : ParameterLibs) (hrun : Run blocks s ids)
    (hc : Consecutive blocks)
    (hctime : ∀ (k : Bytes) (record : DustGenerationRecord), (s .dustGeneration)[k]? = some record →
      record.info.ctime * 1000 < 2 ^ 64)
    (hparse : parseStakeKey addressLibs input = .ok stakeKey) :
    ∃ params answer tip, dustParameters libs .latest = .ok params ∧
      (dustGenerationStatus addressLibs libs input).at s = .ok ⟨answer, tip⟩ ∧
      (∀ k : Bytes, k ∈ s .dustGenByOwner → 32 ≤ k.length) ∧
      StatusOf params s stakeKey answer ∧
      (∀ (codec : CursorCodec) (count : Nat) (order : Order) (delay : Nat → Nat) (t₀ : Nat)
        (pages : List (ApiResponse (List RegistrationResponse))), codec.Lawful → 1 ≤ count ∧ count ≤ 5000 →
        blocks ≠ [] → Walk (fun _ => s) (fun cursor => dustRegistrationsByStake addressLibs codec input
          ⟨count, order, cursor, none⟩) delay t₀ none pages →
        (answer.registered = true ↔ ∃ row ∈ pages.flatMap ApiResponse.results, row.valid = true)) ∧
      ∀ s' m m' answer', s' .cnightRegistrations = s .cnightRegistrations →
        s' .dustGeneration = s .dustGeneration → s' .dustGenByOwner = s .dustGenByOwner →
        tipTimestamp s = some m → tipTimestamp s' = some m' → m ≤ m' →
        (dustGenerationStatus addressLibs libs input).at s' = .ok answer' → ∃ address amounts amounts',
          answer = statusResponse stakeKey address amounts ∧
          answer'.results = statusResponse stakeKey address amounts' ∧
          amounts.currentCapacity ≤ amounts'.currentCapacity := by
  obtain ⟨params, hparams⟩ : ∃ params, dustParameters libs .latest = .ok params := ⟨_, rfl⟩
  have hindex := run_dustIndex hrun
  have hstatus := statusIn_of hrun hctime params stakeKey
  obtain ⟨tip, hanswer⟩ := response_at hrun hc (statusIn params s stakeKey)
  refine ⟨params, statusIn params s stakeKey, tip, hparams, ?_, fun k hk => (hindex.stored k hk).1, hstatus, ?_, ?_⟩
  · rw [dustGenerationStatus_at hindex hparams hparse]
    exact hanswer
  · intro codec count order delay t₀ pages hl hcount hne hw
    have hlists := walk_lists hrun hc hl hparse hcount hne hw
    rw [hstatus.registered, hstatus.listed]
    constructor
    · rintro ⟨row, hget, hunder, hvalid⟩
      exact ⟨_, (hlists _).mpr ⟨row, hget, hunder, rfl⟩, hvalid⟩
    · rintro ⟨answer, hmem, hvalid⟩
      obtain ⟨row, hget, hunder, rfl⟩ := (hlists answer).mp hmem
      exact ⟨row, hget, hunder, hvalid⟩
  · intro s' m m' answer' h₁ h₂ h₃ hm hm' hle hrun'
    rw [dustGenerationStatus_at (hindex.congr h₂ h₃) hparams hparse] at hrun'
    rw [response_results hrun']
    exact statusIn_mono params stakeKey h₁ h₂ h₃ hm hm' hle

end Results

section Samples

def initialParameters : ParameterLibs := fun _ => ⟨5000000000, 8267, 10800⟩

def sampleGeneration : DustGenerationInfo :=
  ⟨.filled 32 3, 5, [2], .filled 32 4, 1, u64Max⟩

def generatingTransaction : AppliedTransaction :=
  { emptyTransaction with ledgerEvents :=
      [⟨.dust, [], .dustInitialUtxo ⟨0, [2], .filled 32 4, 0, 1, .filled 32 3, 0⟩ sampleGeneration 0, none, none⟩] }

def generatingBlock : DerivedBlock :=
  ⟨{ emptyBlock 0 zero_lt_u64 with
      timestamp := 3000
      timestamp_lt := by decide
      dustRegistrationEvents := [.registration (.filled 29 1) [2]] },
    [generatingTransaction], by simp [EntityLog.Derived, generatingTransaction, emptyTransaction]⟩

def generatingStore : Store × Counters :=
  (writeBlock fresh generatingBlock.block generatingBlock.transactions [] []
    (Counters.load fresh)).toOption.getD (fresh, Counters.load fresh)

theorem run_generating : Run [generatingBlock] generatingStore.1 generatingStore.2 :=
  Run.start.step generatingBlock [] [] (by decide +kernel) (ok_of_toBool (by decide +kernel) (fresh, Counters.load fresh))

theorem generating_ctimes : ∀ (k : Bytes) (record : DustGenerationRecord),
    (generatingStore.1 .dustGeneration)[k]? = some record → record.info.ctime * 1000 < 2 ^ 64 := by
  have hrows : ∀ row ∈ (generatingStore.1 .dustGeneration).toList, row.2.info.ctime * 1000 < 2 ^ 64 := by
    decide +kernel
  exact fun k record hget => hrows (k, record) (mem_rows.mpr hget)

theorem dust_status_generating : ∃ answer tip,
    (dustGenerationStatus hexLibs initialParameters (hexEncode (List.replicate 29 1))).at generatingStore.1 =
      .ok ⟨answer, tip⟩ ∧ answer.registered = true ∧ answer.currentCapacity = toString 82670 := by
  have hparse : parseStakeKey hexLibs (hexEncode (List.replicate 29 1)) = .ok (.filled 29 1) := rfl
  have hconsecutive : Consecutive [generatingBlock] := by
    intro i d hd
    cases i with
    | zero =>
        cases hd
        rfl
    | succ i => cases hd
  obtain ⟨params, answer, tip, -, hanswer, -, hstatus, -⟩ := dust_status hexLibs initialParameters run_generating
    hconsecutive generating_ctimes hparse
  have hrow : RegisteredRow generatingStore.1 (.filled 29 1) (List.replicate 29 1 ++ [2],
      ⟨List.replicate 29 1, [2], true, 0, none, none, none⟩) :=
    ⟨by decide +kernel, List.prefix_append _ _, rfl, .inl rfl⟩
  have hcapacity : ((dustGenerationStatus hexLibs initialParameters (hexEncode (List.replicate 29 1))).at
      generatingStore.1).toOption.map (fun response => response.results.currentCapacity) = some (toString 82670) := by
    decide +kernel
  rw [hanswer] at hcapacity
  exact ⟨answer, tip, hanswer, hstatus.registered.mpr ⟨_, hrow⟩, Option.some.inj hcapacity⟩

end Samples

end Nightfrost.DustStatus
