import Nightfrost.Registrations

namespace Nightfrost.Mappings

open ByteOrder Tables Partitions Domain Schema WriteBlock ExceptFold BlockStep BlockRun Registrations

section Slot

/-! Things that come and go, and a slot with room for one of them. -/

inductive Change (M : Type)
  | added (m : M)
  | removed (m : M)
  deriving DecidableEq

variable {M : Type} [DecidableEq M]

/-- The thing added last has not been removed since. -/
def LatestLive (changes : List (Change M)) (m : M) : Prop :=
  ∃ earlier later, changes = earlier ++ .added m :: later ∧ (∀ m', .added m' ∉ later) ∧
    .removed m ∉ later

def trackLive (live : Option M) : Change M → Option M
  | .added m => some m
  | .removed m => if live = some m then none else live

def latestLive (changes : List (Change M)) : Option M := changes.foldl trackLive none

/-- A slot that any removal clears. -/
def trackSlot : Option M → Change M → Option M
  | _, .added m => some m
  | _, .removed _ => none

def slot (changes : List (Change M)) : Option M := changes.foldl trackSlot none

theorem latestLive_push (changes : List (Change M)) (c : Change M) :
    latestLive (changes ++ [c]) = trackLive (latestLive changes) c := by
  simp [latestLive]

omit [DecidableEq M] in
theorem slot_push (changes : List (Change M)) (c : Change M) :
    slot (changes ++ [c]) = trackSlot (slot changes) c := by
  simp [slot]

omit [DecidableEq M] in
theorem latestLive_added (changes : List (Change M)) (m m' : M) :
    LatestLive (changes ++ [.added m']) m ↔ m' = m := by
  constructor
  · rintro ⟨earlier, later, hcut, hnone, -⟩
    rcases push_eq_cut.mp hcut with ⟨-, -, hc⟩ | ⟨front, rfl, -⟩
    · exact Change.added.inj hc
    · exact absurd (by simp) (hnone m')
  · rintro rfl
    exact ⟨changes, [], rfl, by simp, by simp⟩

omit [DecidableEq M] in
theorem latestLive_removed (changes : List (Change M)) (m m' : M) :
    LatestLive (changes ++ [.removed m']) m ↔ LatestLive changes m ∧ m' ≠ m := by
  constructor
  · rintro ⟨earlier, later, hcut, hnone, hlive⟩
    rcases push_eq_cut.mp hcut with ⟨-, -, hc⟩ | ⟨front, rfl, rfl⟩
    · cases hc
    · refine ⟨⟨earlier, front, rfl, fun a ha => hnone a (by simp [ha]), fun ha => hlive (by simp [ha])⟩,
        ?_⟩
      rintro rfl
      exact hlive (by simp)
  · rintro ⟨⟨earlier, later, rfl, hnone, hlive⟩, hne⟩
    refine ⟨earlier, later ++ [.removed m'], by simp, ?_, ?_⟩
    · intro a ha
      simp [hnone a] at ha
    · intro ha
      simp [hlive, hne.symm] at ha

theorem latestLive_eq_some {changes : List (Change M)} {m : M} :
    latestLive changes = some m ↔ LatestLive changes m := by
  induction changes using List.reverseRecOn with
  | nil => simp [latestLive, LatestLive]
  | append_singleton changes c ih =>
      rw [latestLive_push]
      cases c with
      | added m' => rw [latestLive_added, trackLive, Option.some_inj]
      | removed m' =>
          rw [latestLive_removed, ← ih, trackLive]
          by_cases hm : latestLive changes = some m'
          · simp [hm]
          · rw [if_neg hm]
            constructor
            · intro hlive
              refine ⟨hlive, ?_⟩
              rintro rfl
              exact hm hlive
            · exact fun h => h.1

/-- No removal names another thing than the one that is live. -/
def InOrder (changes : List (Change M)) : Prop :=
  ∀ earlier m later, changes = earlier ++ .removed m :: later → ∀ m', LatestLive earlier m' → m = m'

omit [DecidableEq M] in
theorem InOrder.of_push {changes : List (Change M)} {c : Change M} (h : InOrder (changes ++ [c])) :
    InOrder changes := by
  intro earlier m later hcut
  exact h earlier m (later ++ [c]) (by simp [hcut])

theorem InOrder.slot {changes : List (Change M)} (h : InOrder changes) :
    slot changes = latestLive changes := by
  induction changes using List.reverseRecOn with
  | nil => rfl
  | append_singleton changes c ih =>
      rw [slot_push, latestLive_push, ih h.of_push]
      cases c with
      | added m => rfl
      | removed m =>
          cases hlive : latestLive changes with
          | none => simp [trackSlot, trackLive]
          | some m' =>
              obtain rfl := h changes m [] rfl m' (latestLive_eq_some.mp hlive)
              simp [trackSlot, trackLive]

theorem inOrder_iff {changes : List (Change M)} :
    InOrder changes ↔ ∀ front, front <+: changes → slot front = latestLive front := by
  constructor
  · rintro h front ⟨back, rfl⟩
    have hfront : InOrder front := by
      intro earlier m later hcut
      exact h earlier m (later ++ back) (by simp [hcut])
    exact hfront.slot
  · intro hall earlier m later hcut m' hlive
    have hfront := hall (earlier ++ [.removed m]) ⟨later, by simp [hcut]⟩
    rw [slot_push, latestLive_push, latestLive_eq_some.mpr hlive, trackSlot, trackLive] at hfront
    by_contra hne
    rw [if_neg (fun he => hne (Option.some.inj he).symm)] at hfront
    cases hfront

end Slot

section Runs

variable {s s' : Store} {blocks : List DerivedBlock} {ids ids' : Counters}
  {stakeKey : ByteArr 29} {dustAddress : Bytes}

def mappingChange : DustRegistrationEvent → Option (Change (Bytes × Nat))
  | .mappingAdded _ _ utxoId utxoIndex => some (.added (utxoId, utxoIndex))
  | .mappingRemoved _ _ utxoId utxoIndex => some (.removed (utxoId, utxoIndex))
  | _ => none

def mappingChanges (stakeKey : ByteArr 29) (dustAddress : Bytes) (d : DerivedBlock) :
    List (Change (Bytes × Nat)) :=
  (eventsOf (stakeKey.val ++ dustAddress) d.block.dustRegistrationEvents).filterMap mappingChange

def mappingHistory (stakeKey : ByteArr 29) (dustAddress : Bytes) (blocks : List DerivedBlock) :
    List (Change (Bytes × Nat)) :=
  blocks.flatMap (mappingChanges stakeKey dustAddress)

def OneEventPerKey (blocks : List DerivedBlock) : Prop :=
  ∀ d ∈ blocks, (d.block.dustRegistrationEvents.map stakeKeyAndAddress).Nodup

def storedMapping (s : Store) (stakeKey : ByteArr 29) (dustAddress : Bytes) :
    Option Bytes × Option Nat :=
  match (s .cnightRegistrations)[stakeKey.val ++ dustAddress]? with
  | some record => mapping record
  | none => (none, none)

/-- The row of a key has the mapping added last, unless that has been removed. -/
def KeepsLatest (s : Store) (stakeKey : ByteArr 29) (dustAddress : Bytes)
    (blocks : List DerivedBlock) : Prop :=
  (∀ utxoId utxoIndex, LatestLive (mappingHistory stakeKey dustAddress blocks) (utxoId, utxoIndex) →
      storedMapping s stakeKey dustAddress = (some utxoId, some utxoIndex)) ∧
    ((∀ m, ¬ LatestLive (mappingHistory stakeKey dustAddress blocks) m) →
      storedMapping s stakeKey dustAddress = (none, none))

def fieldsOf (m : Option (Bytes × Nat)) : Option Bytes × Option Nat :=
  (m.map Prod.fst, m.map Prod.snd)

theorem fieldsOf_injective : Function.Injective fieldsOf := by
  rintro (_ | ⟨a, i⟩) (_ | ⟨b, j⟩) h <;> simp_all [fieldsOf]

theorem keepsLatest_iff : KeepsLatest s stakeKey dustAddress blocks ↔
    storedMapping s stakeKey dustAddress =
      fieldsOf (latestLive (mappingHistory stakeKey dustAddress blocks)) := by
  cases hlive : latestLive (mappingHistory stakeKey dustAddress blocks) with
  | none =>
      have hnone : ∀ m, ¬ LatestLive (mappingHistory stakeKey dustAddress blocks) m := by
        intro m h
        rw [← latestLive_eq_some, hlive] at h
        cases h
      exact ⟨fun h => h.2 hnone, fun h => ⟨fun _ _ hm => absurd hm (hnone _), fun _ => h⟩⟩
  | some m =>
      have hm := latestLive_eq_some.mp hlive
      constructor
      · exact fun h => h.1 m.1 m.2 hm
      · intro h
        refine ⟨?_, fun hnone => absurd hm (hnone m)⟩
        intro utxoId utxoIndex hm'
        rw [← latestLive_eq_some, hlive] at hm'
        obtain rfl := Option.some.inj hm'
        exact h

theorem registrationKey_eq_iff {event : DustRegistrationEvent} :
    registrationKey event = stakeKey.val ++ dustAddress ↔
      stakeKeyAndAddress event = (stakeKey, dustAddress) := by
  constructor
  · intro h
    obtain ⟨h₁, h₂⟩ := List.append_inj h
      ((stakeKeyAndAddress event).1.property.trans stakeKey.property.symm)
    exact Prod.ext (Subtype.ext h₁) h₂
  · intro h
    rw [registrationKey, h]

theorem events_of_key (stakeKey : ByteArr 29) (dustAddress : Bytes) (d : DerivedBlock) (h : (d.block.dustRegistrationEvents.map
    stakeKeyAndAddress).Nodup) :
    eventsOf (stakeKey.val ++ dustAddress) d.block.dustRegistrationEvents = [] ∨
      ∃ event, stakeKeyAndAddress event = (stakeKey, dustAddress) ∧
        eventsOf (stakeKey.val ++ dustAddress) d.block.dustRegistrationEvents = [event] := by
  cases hevents : eventsOf (stakeKey.val ++ dustAddress) d.block.dustRegistrationEvents with
  | nil => exact .inl rfl
  | cons event rest =>
      have hkey : ∀ e ∈ event :: rest, stakeKeyAndAddress e = (stakeKey, dustAddress) := by
        intro e he
        rw [← hevents] at he
        exact registrationKey_eq_iff.mp (eventsOf_key he)
      have hsub : (event :: rest).Sublist d.block.dustRegistrationEvents := by
        rw [← hevents]
        exact List.filter_sublist
      have hnodup := h.sublist (hsub.map stakeKeyAndAddress)
      cases rest with
      | nil => exact .inr ⟨event, hkey event List.mem_cons_self, rfl⟩
      | cons other rest =>
          rw [List.map_cons, List.map_cons, hkey event (by simp), hkey other (by simp)] at hnodup
          simp at hnodup

theorem storedMapping_step {d : DerivedBlock} {ledgerStateKey : Bytes} {window : LedgerStateWindow}
    (hone : (d.block.dustRegistrationEvents.map stakeKeyAndAddress).Nodup)
    (h : writeBlock s d.block d.transactions ledgerStateKey window ids = .ok (s', ids'))
    {changes : List (Change (Bytes × Nat))}
    (hs : storedMapping s stakeKey dustAddress = fieldsOf (slot changes)) :
    storedMapping s' stakeKey dustAddress =
      fieldsOf (slot (changes ++ mappingChanges stakeKey dustAddress d)) := by
  have hrow := congrArg (fun t : Table CnightRegistrationRecord => t[stakeKey.val ++ dustAddress]?)
    (writeBlock_registrations h)
  rw [batch_row] at hrow
  rw [mappingChanges]
  rcases events_of_key stakeKey dustAddress d hone with
    hnil | ⟨event, hkey, hevent⟩
  · rw [hnil, List.getLast?_nil] at hrow
    rw [hnil, List.filterMap_nil, List.append_nil, ← hs, storedMapping, hrow]
    rfl
  · rw [hevent, List.getLast?_singleton] at hrow
    have hbase : mapping (baseRow s d.block.height event) = fieldsOf (slot changes) := by
      rw [← hs, baseRow, registrationKey_eq_iff.mpr hkey, storedMapping]
      cases (s .cnightRegistrations)[stakeKey.val ++ dustAddress]? <;> rfl
    rw [hevent, storedMapping, hrow]
    change mapping (updateRegistration event d.block.height (baseRow s d.block.height event)) = _
    rw [mapping_update, hbase]
    cases event with
    | registration _ _ | deregistration _ _ =>
        change fieldsOf (slot changes) = fieldsOf (slot (changes ++ []))
        rw [List.append_nil]
    | mappingAdded _ _ utxoId utxoIndex =>
        change _ = fieldsOf (slot (changes ++ [.added (utxoId, utxoIndex)]))
        rw [slot_push]
        rfl
    | mappingRemoved _ _ utxoId utxoIndex =>
        change _ = fieldsOf (slot (changes ++ [.removed (utxoId, utxoIndex)]))
        rw [slot_push]
        rfl

theorem run_storedMapping (h : Run blocks s ids) (hone : OneEventPerKey blocks) :
    storedMapping s stakeKey dustAddress =
      fieldsOf (slot (mappingHistory stakeKey dustAddress blocks)) := by
  induction h with
  | start => rfl
  | step d ledgerStateKey window h hroom hblock ih =>
      rw [mappingHistory, List.flatMap_append, List.flatMap_singleton]
      exact storedMapping_step (hone d (by simp)) hblock
        (ih fun e he => hone e (List.mem_append_left _ he))
  | @scan blocks s s' ids h hscan ih =>
      have hrows : s' .cnightRegistrations = s .cnightRegistrations := hscan _ (by decide)
      rw [storedMapping, hrows]
      exact ih hone

theorem history_cut {earlier later : List (Change (Bytes × Nat))} (hone : OneEventPerKey blocks)
    (h : mappingHistory stakeKey dustAddress blocks = earlier ++ later) :
    ∃ front, front <+: blocks ∧ mappingHistory stakeKey dustAddress front = earlier := by
  induction blocks generalizing earlier with
  | nil =>
      obtain ⟨rfl, -⟩ := List.append_eq_nil_iff.mp h.symm
      exact ⟨[], List.prefix_rfl, rfl⟩
  | cons d blocks ih =>
      have hrest : OneEventPerKey blocks := fun e he => hone e (List.mem_cons_of_mem _ he)
      have hshort : (mappingChanges stakeKey dustAddress d).length ≤ 1 := by
        rw [mappingChanges]
        rcases events_of_key stakeKey dustAddress d
          (hone d List.mem_cons_self) with hnil | ⟨event, -, hevent⟩
        · simp [hnil]
        · rw [hevent]
          exact (List.length_filterMap_le _ _).trans (by simp)
      cases earlier with
      | nil => exact ⟨[], List.nil_prefix, rfl⟩
      | cons c earlier =>
          rw [mappingHistory, List.flatMap_cons] at h
          have hnext (changes : List (Change (Bytes × Nat)))
              (hd : mappingChanges stakeKey dustAddress d = changes) (rest)
              (hcut : c :: earlier = changes ++ rest)
              (htail : mappingHistory stakeKey dustAddress blocks = rest ++ later) :
              ∃ front, front <+: d :: blocks ∧
                mappingHistory stakeKey dustAddress front = c :: earlier := by
            obtain ⟨front, hfront, hhistory⟩ := ih hrest htail
            refine ⟨d :: front, List.cons_prefix_cons.mpr ⟨rfl, hfront⟩, ?_⟩
            rw [mappingHistory, List.flatMap_cons, hd, hcut, ← hhistory, mappingHistory]
          cases hd : mappingChanges stakeKey dustAddress d with
          | nil =>
              rw [hd, List.nil_append] at h
              exact hnext [] hd (c :: earlier) rfl h
          | cons c' more =>
              rw [hd, List.length_cons] at hshort
              obtain rfl : more = [] := List.length_eq_zero_iff.mp (by omega)
              rw [hd, List.singleton_append, List.cons_append] at h
              obtain ⟨rfl, htail⟩ := List.cons.inj h
              exact hnext [c'] hd earlier rfl htail

theorem run_front (h : Run blocks s ids) {front : List DerivedBlock} (hfront : front <+: blocks) :
    ∃ s ids, Run front s ids := by
  induction h with
  | start =>
      obtain rfl := List.prefix_nil.mp hfront
      exact ⟨_, _, .start⟩
  | @step blocks s s' ids ids' d ledgerStateKey window h hroom hblock ih =>
      rcases List.prefix_concat_iff.mp hfront with rfl | hfront
      · exact ⟨s', ids', .step d ledgerStateKey window h hroom hblock⟩
      · exact ih hfront
  | scan h hscan ih => exact ih hfront

/-- The rows have their latest mapping after every block of a run exactly when
no removal of an older mapping comes while a newer one is live. -/
theorem latest_mappings_iff (h : Run blocks s ids) (hone : OneEventPerKey blocks) :
    (∀ front s' ids', front <+: blocks → Run front s' ids' → ∀ stakeKey dustAddress,
        KeepsLatest s' stakeKey dustAddress front) ↔
      ∀ stakeKey dustAddress, InOrder (mappingHistory stakeKey dustAddress blocks) := by
  have honeFront {front : List DerivedBlock} (hfront : front <+: blocks) : OneEventPerKey front :=
    fun d hd => hone d (hfront.subset hd)
  constructor
  · intro hall stakeKey dustAddress
    rw [inOrder_iff]
    rintro earlier ⟨later, hcut⟩
    obtain ⟨front, hfront, rfl⟩ := history_cut hone hcut.symm
    obtain ⟨s', ids', hrun⟩ := run_front h hfront
    have hkeeps := keepsLatest_iff.mp (hall front s' ids' hfront hrun stakeKey dustAddress)
    rw [run_storedMapping hrun (honeFront hfront)] at hkeeps
    exact fieldsOf_injective hkeeps
  · intro horder front s' ids' hfront hrun stakeKey dustAddress
    obtain ⟨back, rfl⟩ := hfront
    rw [keepsLatest_iff, run_storedMapping hrun (honeFront (List.prefix_append front back))]
    refine congrArg fieldsOf (inOrder_iff.mp (horder stakeKey dustAddress) _ ?_)
    exact ⟨mappingHistory stakeKey dustAddress back, by simp [mappingHistory]⟩

def mappingBlock (height : Nat) (h : height < 2 ^ 64) (event : DustRegistrationEvent) : DerivedBlock :=
  ⟨{ emptyBlock height h with dustRegistrationEvents := [event] }, [],
    fun _ hmem => absurd hmem List.not_mem_nil⟩

def olderRemoved : List DerivedBlock :=
  [mappingBlock 0 zero_lt_u64 (.mappingAdded (.filled 29 1) [2] [8] 0),
    mappingBlock 1 one_lt_u64 (.mappingAdded (.filled 29 1) [2] [9] 0),
    mappingBlock 2 two_lt_u64 (.mappingRemoved (.filled 29 1) [2] [8] 0)]

theorem olderRemoved_one : OneEventPerKey olderRemoved := by
  intro d hd
  simp only [olderRemoved, List.mem_cons, List.not_mem_nil, or_false] at hd
  rcases hd with rfl | rfl | rfl <;> exact List.nodup_singleton _

theorem olderRemoved_run : ∃ s ids, Run olderRemoved s ids := by
  obtain ⟨s₁, h₁⟩ := writeBlock_empty fresh
    { emptyBlock 0 zero_lt_u64 with
      dustRegistrationEvents := [.mappingAdded (.filled 29 1) [2] [8] 0] } [] [] (Counters.load fresh)
  obtain ⟨s₂, h₂⟩ := writeBlock_empty s₁
    { emptyBlock 1 one_lt_u64 with
      dustRegistrationEvents := [.mappingAdded (.filled 29 1) [2] [9] 0] } [] [] (Counters.load fresh)
  obtain ⟨s₃, h₃⟩ := writeBlock_empty s₂
    { emptyBlock 2 two_lt_u64 with
      dustRegistrationEvents := [.mappingRemoved (.filled 29 1) [2] [8] 0] } [] [] (Counters.load fresh)
  have hroom : Staging.Room (Counters.load fresh) [] := by decide
  exact ⟨s₃, _, ((Run.start.step (mappingBlock 0 zero_lt_u64 _) [] [] hroom h₁).step
    (mappingBlock 1 one_lt_u64 _) [] [] hroom h₂).step (mappingBlock 2 two_lt_u64 _) [] [] hroom h₃⟩

theorem latest_mappings_older : ∃ s ids, Run olderRemoved s ids ∧
    ((∀ front s' ids', front <+: olderRemoved → Run front s' ids' → ∀ stakeKey dustAddress,
        KeepsLatest s' stakeKey dustAddress front) ↔
      ∀ stakeKey dustAddress, InOrder (mappingHistory stakeKey dustAddress olderRemoved)) := by
  obtain ⟨s, ids, hrun⟩ := olderRemoved_run
  exact ⟨s, ids, hrun, latest_mappings_iff hrun olderRemoved_one⟩

/-- The newer mapping is live, and the row has none. -/
theorem older_removal_clears : ∃ s ids, Run olderRemoved s ids ∧ OneEventPerKey olderRemoved ∧
    LatestLive (mappingHistory (.filled 29 1) [2] olderRemoved) ([9], 0) ∧
    ¬ KeepsLatest s (.filled 29 1) [2] olderRemoved := by
  obtain ⟨s, ids, hrun⟩ := olderRemoved_run
  have hhistory : mappingHistory (.filled 29 1) [2] olderRemoved =
      [.added ([8], 0), .added ([9], 0), .removed ([8], 0)] := by decide
  have hlive : LatestLive (mappingHistory (.filled 29 1) [2] olderRemoved) ([9], 0) := by
    rw [hhistory]
    exact ⟨[.added ([8], 0)], [.removed ([8], 0)], rfl, by simp, by simp⟩
  refine ⟨s, ids, hrun, olderRemoved_one, hlive, ?_⟩
  intro hkeeps
  have hstored := hkeeps.1 _ _ hlive
  rw [run_storedMapping hrun olderRemoved_one, hhistory] at hstored
  cases hstored

end Runs

end Nightfrost.Mappings
