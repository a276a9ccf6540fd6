import Nightfrost.DustBackfill
import Nightfrost.DustEvents

namespace Nightfrost.DtimeUpdates

open ByteOrder Tables Partitions Domain Schema WriteBlock Staging ExceptFold EntityLog BlockStep
  BlockRun DenseIds DustBackfill DustEvents

def aboutNight (hash : ByteArr 32) (record : EventRecord) : Bool :=
  (generationInfoOf record.event.attributes).any (fun info => info.nightUtxoHash = hash)

structure InitialEvent (libs : DustLibs) (initial : DustGenerationInfo) (record : EventRecord) :
    Prop where
  made : ∃ version output generation generationIndex raw event,
    makeInitial libs version output generation generationIndex raw = .ok event ∧
      record.event.attributes = event.attributes
  info : generationInfoOf record.event.attributes = some initial

/-- A dtime update of either ledger version, with the owner, value and nonce of
the initial event. -/
structure DtimeEvent (libs : DustLibs) (initial : DustGenerationInfo) (dtime : Nat)
    (record : EventRecord) : Prop where
  made : ∃ version update raw event, makeDtimeUpdate libs version update raw = .ok event ∧
    record.event.attributes = event.attributes
  info : ∃ info, generationInfoOf record.event.attributes = some info ∧
    info.nightUtxoHash = initial.nightUtxoHash ∧ info.owner = initial.owner ∧
      info.value = initial.value ∧ info.nonce = initial.nonce ∧ info.dtime = dtime

/-- An initial event and, among any others, the dtime updates behind it. -/
def Updated (libs : DustLibs) (records : List EventRecord) (initial : DustGenerationInfo)
    (dtime : Nat) : Prop :=
  ∃ before first after updates last, records = before ++ first :: after ∧
    InitialEvent libs initial first ∧
    after.filter (aboutNight initial.nightUtxoHash) = updates ++ [last] ∧
    (∀ update ∈ updates, ∃ dtime', DtimeEvent libs initial dtime' update) ∧
    DtimeEvent libs initial dtime last

/-- Nothing but the dtime of the record has changed. -/
structure OnlyDtime (s : Store) (records : List EventRecord) (initial : DustGenerationInfo)
    (dtime : Nat) : Prop where
  record : ∃ txId, (s .dustGeneration)[initial.nightUtxoHash.val]? =
    some ⟨{ initial with dtime }, txId⟩
  others : ∀ k, k ≠ initial.nightUtxoHash.val → (s .dustGeneration)[k]? =
    (replay (records.filter (fun record => !aboutNight initial.nightUtxoHash record))
      .dustGeneration)[k]?
  entry : initial.owner ++ initial.nightUtxoHash.val ∈ s .dustGenByOwner
  noOther : (∀ record ∈ records, ∀ info, generationInfoOf record.event.attributes = some info →
      info.nightUtxoHash = initial.nightUtxoHash → info.owner = initial.owner) →
    ∀ owner, owner ++ initial.nightUtxoHash.val ∈ s .dustGenByOwner → owner = initial.owner

section History

variable {libs : DustLibs} {records : List EventRecord} {initial : DustGenerationInfo} {dtime : Nat}
  {record : EventRecord} {hash : ByteArr 32} {k : Bytes}

theorem generationOf_isSome (h : (generationOf hash.val record).isSome) :
    aboutNight hash record = true := by
  rw [generationOf] at h
  cases hinfo : generationInfoOf record.event.attributes with
  | none => simp [hinfo] at h
  | some info =>
      have hhash : info.nightUtxoHash.val = hash.val := by
        by_contra hne
        simp [hinfo, hne] at h
      simp [aboutNight, hinfo, Subtype.ext hhash]

theorem generationOf_about (hk : k ≠ hash.val) (h : aboutNight hash record = true) :
    generationOf k record = none := by
  cases hinfo : generationInfoOf record.event.attributes with
  | none => simp [generationOf, hinfo]
  | some info =>
      have hhash : info.nightUtxoHash = hash := by simpa [aboutNight, hinfo] using h
      simp [generationOf, hinfo, hhash, Ne.symm hk]

theorem filterMap_about (hash : ByteArr 32) (records : List EventRecord) :
    (records.filter (aboutNight hash)).filterMap (generationOf hash.val) =
      records.filterMap (generationOf hash.val) := by
  rw [List.filterMap_filter]
  refine List.filterMap_congr fun record _ => ?_
  cases hrow : generationOf hash.val record with
  | none => exact ite_self _
  | some row => exact if_pos (generationOf_isSome (by rw [hrow]; rfl))

theorem filterMap_others (hk : k ≠ hash.val) (records : List EventRecord) :
    (records.filter (fun record => !aboutNight hash record)).filterMap (generationOf k) =
      records.filterMap (generationOf k) := by
  rw [List.filterMap_filter]
  refine List.filterMap_congr fun record _ => ?_
  cases habout : aboutNight hash record with
  | false => rfl
  | true => exact (generationOf_about hk habout).symm

theorem DtimeEvent.info_eq (h : DtimeEvent libs initial dtime record) :
    generationInfoOf record.event.attributes = some { initial with ctime := 0, dtime } := by
  obtain ⟨info, hinfo, hhash, howner, hvalue, hnonce, hdtime⟩ := h.info
  obtain ⟨version, update, raw, event, hmade, hattributes⟩ := h.made
  obtain ⟨owner, path, -, heq⟩ := makeDtimeUpdate_ok hmade
  have hzero : info.ctime = 0 := by
    rw [hattributes, heq] at hinfo
    obtain rfl := Option.some_inj.mp hinfo
    rfl
  rw [hinfo, ← hhash, ← howner, ← hvalue, ← hnonce, ← hdtime, ← hzero]

theorem DtimeEvent.generationOf (h : DtimeEvent libs initial dtime record) :
    generationOf initial.nightUtxoHash.val record =
      some ⟨{ initial with ctime := 0, dtime }, record.txId⟩ := by
  simp [DustBackfill.generationOf, h.info_eq]

theorem Updated.last (h : Updated libs records initial dtime) : ∃ txId,
    (records.filterMap (generationOf initial.nightUtxoHash.val)).getLast? =
      some ⟨{ initial with ctime := 0, dtime }, txId⟩ := by
  obtain ⟨before, first, after, updates, last, rfl, -, hafter, -, hlast⟩ := h
  have hend : after.filterMap (generationOf initial.nightUtxoHash.val) =
      updates.filterMap (generationOf initial.nightUtxoHash.val) ++
        [⟨{ initial with ctime := 0, dtime }, last.txId⟩] := by
    rw [← filterMap_about, hafter, List.filterMap_append, List.filterMap_cons_some hlast.generationOf]
    rfl
  refine ⟨last.txId, ?_⟩
  rw [List.append_cons, List.filterMap_append, hend, ← List.append_assoc, List.getLast?_concat]

theorem Updated.first (h : Updated libs records initial dtime) : ∃ record ∈ records,
    generationInfoOf record.event.attributes = some initial := by
  obtain ⟨before, first, after, -, -, rfl, hfirst, -, -, -⟩ := h
  exact ⟨first, List.mem_append_right _ List.mem_cons_self, hfirst.info⟩

end History

section Runs

variable {s : Store} {blocks : List DerivedBlock} {ids : Counters} {initial : DustGenerationInfo}
  {dtime : Nat}

/-- The update writes its own creation time, which is zero, over that of the
initial event; it changes nothing else. -/
theorem only_dtime_iff (libs : DustLibs) (hrun : Run blocks s ids)
    (hupdated : Updated libs (logOf blocks).events initial dtime) :
    OnlyDtime s (logOf blocks).events initial dtime ↔ initial.ctime = 0 := by
  have hgeneration : s .dustGeneration = replay (logOf blocks).events .dustGeneration :=
    run_dusted hrun _ (by decide)
  have howners : s .dustGenByOwner = replay (logOf blocks).events .dustGenByOwner :=
    run_dusted hrun _ (by decide)
  obtain ⟨txId, hlast⟩ := hupdated.last
  constructor
  · intro h
    obtain ⟨txId', hrow⟩ := h.record
    rw [hgeneration, replay_generation, hlast, Option.some_inj] at hrow
    exact (congrArg (fun row => row.info.ctime) hrow).symm
  · intro hzero
    refine ⟨⟨txId, ?_⟩, ?_, ?_, ?_⟩
    · rw [hgeneration, replay_generation, hlast, ← hzero]
    · intro k hk
      rw [hgeneration, replay_generation, replay_generation, filterMap_others hk]
    · obtain ⟨first, hmem, hinfo⟩ := hupdated.first
      rw [howners]
      exact (replay_owner _ _).mpr ⟨first, hmem, initial, hinfo, rfl⟩
    · intro hsame owner hkey
      rw [howners] at hkey
      obtain ⟨record, hmem, info, hinfo, heq⟩ := (replay_owner _ _).mp hkey
      have hlen : initial.nightUtxoHash.val.length = info.nightUtxoHash.val.length := by
        rw [initial.nightUtxoHash.property, info.nightUtxoHash.property]
      obtain ⟨rfl, hhash⟩ := List.append_inj' heq hlen
      exact hsame record hmem info hinfo (Subtype.ext hhash.symm)

end Runs

section Samples

def sampleOutput (ctime : Nat) : LedgerDustOutput Bytes :=
  ⟨0, [7], .filled 32 1, 0, ctime, .filled 32 1, 0⟩

def sampleGeneration (dtime : Nat) : LedgerGeneration Bytes := ⟨5, [7], .filled 32 1, dtime⟩

def sampleEvents (ctime : Nat) : List LedgerEvent :=
  [(makeInitial (fun _ => plainLib) .v8 (sampleOutput ctime) (sampleGeneration 100) 0 []).toOption,
    (makeDtimeUpdate (fun _ => plainLib) .v9 ⟨sampleGeneration 9, []⟩ []).toOption].filterMap id

def sampleTransaction (ctime : Nat) : AppliedTransaction :=
  { emptyTransaction with ledgerEvents := sampleEvents ctime }

def sampleBlocks (ctime : Nat) : List DerivedBlock :=
  [⟨emptyBlock 0 zero_lt_u64, [sampleTransaction ctime],
    by simp [Derived, sampleTransaction, emptyTransaction]⟩]

def sampleInfo (ctime : Nat) : DustGenerationInfo :=
  ⟨.filled 32 1, 5, [7], .filled 32 1, ctime, 100⟩

theorem updated_sample (ctime : Nat) :
    Updated (fun _ => plainLib) (logOf (sampleBlocks ctime)).events (sampleInfo ctime) 9 := by
  refine ⟨[], _, _, [], _, rfl, ⟨⟨.v8, sampleOutput ctime, sampleGeneration 100, 0, [], _, rfl, rfl⟩,
    rfl⟩, rfl, fun _ h => absurd h List.not_mem_nil, ⟨⟨.v9, ⟨sampleGeneration 9, []⟩, [], _, rfl, rfl⟩,
    _, rfl, rfl, rfl, rfl, rfl, rfl⟩⟩

def sampleStore (ctime : Nat) : Store × Counters :=
  (writeBlock fresh (emptyBlock 0 zero_lt_u64) [sampleTransaction ctime] [] []
    (Counters.load fresh)).toOption.getD (fresh, Counters.load fresh)

theorem only_dtime_genesis : Run (sampleBlocks 0) (sampleStore 0).1 (sampleStore 0).2 ∧
    (OnlyDtime (sampleStore 0).1 (logOf (sampleBlocks 0)).events (sampleInfo 0) 9 ↔
      (sampleInfo 0).ctime = 0) := by
  have hrun : Run (sampleBlocks 0) (sampleStore 0).1 (sampleStore 0).2 :=
    Run.start.step _ [] [] (by decide +kernel) (ok_of_toBool (by decide +kernel) (fresh, Counters.load fresh))
  exact ⟨hrun, only_dtime_iff _ hrun (updated_sample 0)⟩

/-- The creation time 5 of the initial event is lost. -/
theorem update_loses_ctime : ∃ s ids,
    Run (sampleBlocks 5) s ids ∧
      Updated (fun _ => plainLib) (logOf (sampleBlocks 5)).events (sampleInfo 5) 9 ∧
      ¬ OnlyDtime s (logOf (sampleBlocks 5)).events (sampleInfo 5) 9 := by
  have hrun : Run (sampleBlocks 5) (sampleStore 5).1 (sampleStore 5).2 :=
    Run.start.step _ [] [] (by decide +kernel) (ok_of_toBool (by decide +kernel) (fresh, Counters.load fresh))
  refine ⟨_, _, hrun, updated_sample 5, ?_⟩
  intro h
  obtain ⟨txId', hrow⟩ := h.record
  obtain ⟨txId, hlast⟩ := (updated_sample 5).last
  rw [run_dusted hrun _ (by decide), replay_generation, hlast, Option.some_inj] at hrow
  have hctime : (0 : Nat) = 5 := congrArg (fun row => row.info.ctime) hrow
  omega

end Samples

end Nightfrost.DtimeUpdates
