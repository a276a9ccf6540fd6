import Nightfrost.BlockRun

namespace Nightfrost.Registrations

open ByteOrder Tables Partitions Domain Schema WriteBlock Staging ExceptFold BlockStep BlockRun

/-- The events one at a time, each seeing the effect of the earlier ones. -/
def applyOneByOne (s : Store) (blockHeight : Nat) (events : List DustRegistrationEvent) : Store :=
  events.foldl (fun s event => commit s (applyRegistrationEvent s blockHeight [] event)) s

def eventsOf (key : Bytes) (events : List DustRegistrationEvent) : List DustRegistrationEvent :=
  events.filter (fun event => registrationKey event = key)

def baseRow (s : Store) (blockHeight : Nat) (event : DustRegistrationEvent) :
    CnightRegistrationRecord :=
  (s .cnightRegistrations)[registrationKey event]?.getD (newRegistration event blockHeight)

section Groups

/-! The fields that an event writes fall into three groups; an event writes a
group as a whole or not at all. -/

def status (record : CnightRegistrationRecord) : Bool × Option Nat :=
  (record.valid, record.removedAtHeight)

def mapping (record : CnightRegistrationRecord) : Option Bytes × Option Nat :=
  (record.utxoId, record.utxoIndex)

def writesStatus (blockHeight : Nat) : DustRegistrationEvent → Option (Bool × Option Nat)
  | .registration _ _ | .mappingAdded _ _ _ _ => some (true, none)
  | .deregistration _ _ => some (false, some blockHeight)
  | .mappingRemoved _ _ _ _ => none

def writesRegisteredAt (blockHeight : Nat) : DustRegistrationEvent → Option Nat
  | .registration _ _ => some blockHeight
  | _ => none

def writesMapping : DustRegistrationEvent → Option (Option Bytes × Option Nat)
  | .mappingAdded _ _ utxoId utxoIndex => some (some utxoId, some utxoIndex)
  | .mappingRemoved _ _ _ _ => some (none, none)
  | _ => none

variable {blockHeight : Nat} {event : DustRegistrationEvent} {record : CnightRegistrationRecord}

theorem status_update : status (updateRegistration event blockHeight record) =
    (writesStatus blockHeight event).getD (status record) := by
  cases event <;> rfl

theorem registeredAt_update : (updateRegistration event blockHeight record).registeredAtHeight =
    (writesRegisteredAt blockHeight event).getD record.registeredAtHeight := by
  cases event <;> rfl

theorem mapping_update : mapping (updateRegistration event blockHeight record) =
    (writesMapping event).getD (mapping record) := by
  cases event <;> rfl

theorem identity_update (blockHeight : Nat) (event : DustRegistrationEvent)
    (record : CnightRegistrationRecord) :
    (updateRegistration event blockHeight record).cardanoStakeKey = record.cardanoStakeKey ∧
      (updateRegistration event blockHeight record).dustAddress = record.dustAddress := by
  cases event <;> exact ⟨rfl, rfl⟩

theorem row_ext {a b : CnightRegistrationRecord}
    (hkey : a.cardanoStakeKey = b.cardanoStakeKey ∧ a.dustAddress = b.dustAddress) :
    a = b ↔ status a = status b ∧ a.registeredAtHeight = b.registeredAtHeight ∧
      mapping a = mapping b := by
  obtain ⟨h₁, h₂⟩ := hkey
  constructor
  · rintro rfl
    exact ⟨rfl, rfl, rfl⟩
  · rintro ⟨hs, hr, hm⟩
    obtain ⟨hv, hrem⟩ := Prod.mk.inj hs
    obtain ⟨hu, hi⟩ := Prod.mk.inj hm
    cases a
    cases b
    simp_all

end Groups

section LastWrite

variable {E R V : Type}

/-- The value that the last of the events that write a group writes. -/
def lastWrite (writes : E → Option V) (events : List E) : Option V :=
  events.reverse.findSome? writes

theorem read_foldl {update : E → R → R} (get : R → V) {writes : E → Option V}
    (hupdate : ∀ e r, get (update e r) = (writes e).getD (get r)) (events : List E) (r : R) :
    get (events.foldl (fun r e => update e r) r) = (lastWrite writes events).getD (get r) := by
  induction events using List.reverseRecOn with
  | nil => rfl
  | append_singleton events e ih =>
      rw [List.foldl_append, List.foldl_cons, List.foldl_nil, hupdate, ih, lastWrite, lastWrite,
        List.reverse_append, List.reverse_singleton, List.singleton_append, List.findSome?_cons]
      cases writes e <;> rfl

/-- A group that the last event leaves alone already has the value that the
earlier events give it. -/
def Kept (writes : E → Option V) (value : V) (earlier : List E) (last : E) : Prop :=
  writes last = none → ∀ v, lastWrite writes earlier = some v → v = value

theorem kept_iff (writes : E → Option V) (value : V) (earlier : List E) (last : E) :
    (writes last).getD value = (writes last).getD ((lastWrite writes earlier).getD value) ↔
      Kept writes value earlier last := by
  rw [Kept]
  cases writes last with
  | some w => simp
  | none =>
      cases lastWrite writes earlier with
      | none => simp
      | some v => simp [eq_comm]

end LastWrite

/-- No event of the block is lost on a key: every group that the key's last
event does not write has, in the row the block started from, the value that
the earlier events of the key give it. -/
def NothingLost (s : Store) (blockHeight : Nat) (earlier : List DustRegistrationEvent)
    (last : DustRegistrationEvent) : Prop :=
  Kept (writesStatus blockHeight) (status (baseRow s blockHeight last)) earlier last ∧
    Kept (writesRegisteredAt blockHeight) (baseRow s blockHeight last).registeredAtHeight
      earlier last ∧
    Kept writesMapping (mapping (baseRow s blockHeight last)) earlier last

section Rows

variable {s : Store} {blockHeight : Nat}

theorem key_fields {a b : DustRegistrationEvent} (h : registrationKey a = registrationKey b) :
    newRegistration a blockHeight = newRegistration b blockHeight := by
  have hlen : (stakeKeyAndAddress a).1.val.length = (stakeKeyAndAddress b).1.val.length := by
    rw [(stakeKeyAndAddress a).1.property, (stakeKeyAndAddress b).1.property]
  obtain ⟨h₁, h₂⟩ := List.append_inj h hlen
  simp only [newRegistration, h₁, h₂]

theorem batch_row (events : List DustRegistrationEvent) (batch : StoreBatch) (key : Bytes) :
    (commit s (events.foldl (applyRegistrationEvent s blockHeight) batch) .cnightRegistrations)[key]? =
      match (eventsOf key events).getLast? with
      | none => (commit s batch .cnightRegistrations)[key]?
      | some last => some (updateRegistration last blockHeight (baseRow s blockHeight last)) := by
  induction events using List.reverseRecOn with
  | nil => rfl
  | append_singleton events event ih =>
      rw [List.foldl_append, List.foldl_cons, List.foldl_nil, applyRegistrationEvent, commit_append,
        commit_singleton, apply_put_same, get_insert]
      by_cases hk : registrationKey event = key
      · simp [eventsOf, List.filter_append, hk, baseRow]
      · rw [if_neg hk, ih]
        simp [eventsOf, List.filter_append, hk]

theorem oneByOne_row (events : List DustRegistrationEvent) (key : Bytes) :
    (applyOneByOne s blockHeight events .cnightRegistrations)[key]? =
      (eventsOf key events).foldl (fun row event =>
        some (updateRegistration event blockHeight (row.getD (newRegistration event blockHeight))))
        (s .cnightRegistrations)[key]? := by
  induction events using List.reverseRecOn with
  | nil => rfl
  | append_singleton events event ih =>
      rw [applyOneByOne, List.foldl_append, List.foldl_cons, List.foldl_nil, ← applyOneByOne,
        applyRegistrationEvent, List.nil_append, commit_singleton, apply_put_same, get_insert]
      by_cases hk : registrationKey event = key
      · rw [if_pos hk, hk, ih]
        simp [eventsOf, List.filter_append, hk]
      · rw [if_neg hk, ih]
        simp [eventsOf, List.filter_append, hk]

theorem foldl_some (blockHeight : Nat) {key : Bytes} (events : List DustRegistrationEvent)
    (hkey : ∀ e ∈ events, registrationKey e = key) (last : DustRegistrationEvent)
    (hlast : registrationKey last = key) (row : Option CnightRegistrationRecord) :
    (events.foldl (fun row event => some (updateRegistration event blockHeight
        (row.getD (newRegistration event blockHeight)))) row).getD
        (newRegistration last blockHeight) =
      events.foldl (fun r event => updateRegistration event blockHeight r)
        (row.getD (newRegistration last blockHeight)) := by
  induction events generalizing row with
  | nil => rfl
  | cons e events ih =>
      rw [List.foldl_cons, List.foldl_cons, ih (fun e' he => hkey e' (List.mem_cons_of_mem _ he)),
        Option.getD_some, key_fields ((hkey e List.mem_cons_self).trans hlast.symm)]

theorem identity_foldl (blockHeight : Nat) (events : List DustRegistrationEvent) (r : CnightRegistrationRecord) :
    (events.foldl (fun r e => updateRegistration e blockHeight r) r).cardanoStakeKey =
        r.cardanoStakeKey ∧
      (events.foldl (fun r e => updateRegistration e blockHeight r) r).dustAddress =
        r.dustAddress := by
  induction events generalizing r with
  | nil => exact ⟨rfl, rfl⟩
  | cons e events ih =>
      obtain ⟨h₁, h₂⟩ := ih (updateRegistration e blockHeight r)
      obtain ⟨h₃, h₄⟩ := identity_update blockHeight e r
      exact ⟨h₁.trans h₃, h₂.trans h₄⟩

theorem row_eq_iff (events : List DustRegistrationEvent) (key : Bytes) :
    (commit s (events.foldl (applyRegistrationEvent s blockHeight) []) .cnightRegistrations)[key]? =
        (applyOneByOne s blockHeight events .cnightRegistrations)[key]? ↔
      ∀ earlier last, eventsOf key events = earlier ++ [last] →
        NothingLost s blockHeight earlier last := by
  rw [batch_row, oneByOne_row]
  have hkeys : ∀ e ∈ eventsOf key events, registrationKey e = key := by
    intro e he
    simpa using (List.mem_filter.mp he).2
  rcases List.eq_nil_or_concat (eventsOf key events) with hnil | ⟨earlier, last, hlast⟩
  · rw [hnil]
    simp
  · rw [List.concat_eq_append] at hlast
    rw [hlast] at hkeys ⊢
    have hkey : registrationKey last = key := hkeys last (by simp)
    have hfold := foldl_some blockHeight earlier
      (fun e he => hkeys e (List.mem_append_left _ he)) last hkey (s .cnightRegistrations)[key]?
    rw [List.foldl_append, List.foldl_cons, List.foldl_nil, hfold, ← hkey, ← baseRow]
    have hstatus : ∀ e r, status (updateRegistration e blockHeight r) =
        (writesStatus blockHeight e).getD (status r) := fun _ _ => status_update
    have hregistered : ∀ e r, (updateRegistration e blockHeight r).registeredAtHeight =
        (writesRegisteredAt blockHeight e).getD r.registeredAtHeight := fun _ _ => registeredAt_update
    have hmapping : ∀ e r, mapping (updateRegistration e blockHeight r) =
        (writesMapping e).getD (mapping r) := fun _ _ => mapping_update
    rw [List.getLast?_concat]
    show some _ = some _ ↔ _
    have hid := identity_foldl blockHeight earlier (baseRow s blockHeight last)
    rw [Option.some_inj, row_ext ⟨?_, ?_⟩, status_update, status_update, registeredAt_update, registeredAt_update,
      mapping_update, mapping_update,
      read_foldl status hstatus, read_foldl CnightRegistrationRecord.registeredAtHeight hregistered,
      read_foldl mapping hmapping, kept_iff, kept_iff, kept_iff]
    · constructor
      · rintro h earlier' last' he
        obtain ⟨rfl, hl⟩ := List.append_inj' he rfl
        obtain rfl := List.singleton_inj.mp hl
        exact h
      · intro h
        exact h earlier last rfl
    · rw [(identity_update _ _ _).1, (identity_update _ _ _).1, hid.1]
    · rw [(identity_update _ _ _).2, (identity_update _ _ _).2, hid.2]

end Rows

section Blocks

variable {s s' : Store} {block : Block} {transactions : List AppliedTransaction}
  {ledgerStateKey : Bytes} {window : LedgerStateWindow} {ids ids' : Counters}

theorem writeBlock_registrations
    (h : writeBlock s block transactions ledgerStateKey window ids = .ok (s', ids')) :
    s' .cnightRegistrations = commit s (block.dustRegistrationEvents.foldl
      (applyRegistrationEvent s block.height) []) .cnightRegistrations := by
  obtain ⟨st, balances, hloop, htail, rfl, rfl⟩ := writeBlock_ok.mp h
  have hold : commit s balances .cnightRegistrations = s .cnightRegistrations := by
    rw [writeBalances_frame (by decide) htail]
    exact writeTransactions_frame (by decide) hloop
  rw [blockBatch_eq, metaOps_frame (by decide), commit_append, commit_cons, commit_cons, commit_nil,
    apply_put_other _ (by decide), apply_put_other _ (by decide)]
  apply ext_get
  intro key
  rw [batch_row, batch_row, writeAddresses_frame (by decide), hold]
  rfl

/-- What a reader asks of a row: whether it is valid, whether it is removed, and its mapping. -/
def answer (record : CnightRegistrationRecord) : Bool × Bool × (Option Bytes × Option Nat) :=
  (record.valid, record.removedAtHeight.isSome, mapping record)

def answeredStatus (record : CnightRegistrationRecord) : Bool × Bool :=
  (record.valid, record.removedAtHeight.isSome)

def writesAnsweredStatus : DustRegistrationEvent → Option (Bool × Bool)
  | .registration _ _ | .mappingAdded _ _ _ _ => some (true, false)
  | .deregistration _ _ => some (false, true)
  | .mappingRemoved _ _ _ _ => none

theorem answer_ext {a b : CnightRegistrationRecord} :
    answer a = answer b ↔ answeredStatus a = answeredStatus b ∧ mapping a = mapping b := by
  simp only [answer, answeredStatus, Prod.mk.injEq, and_assoc]

theorem answeredStatus_update (blockHeight : Nat) (event : DustRegistrationEvent)
    (record : CnightRegistrationRecord) :
    answeredStatus (updateRegistration event blockHeight record) =
      (writesAnsweredStatus event).getD (answeredStatus record) := by
  cases event <;> rfl

theorem answer_update {a b : CnightRegistrationRecord} (i j : Nat) (event : DustRegistrationEvent)
    (h : answer a = answer b) :
    answer (updateRegistration event i a) = answer (updateRegistration event j b) := by
  obtain ⟨hs, hm⟩ := answer_ext.mp h
  rw [answer_ext, answeredStatus_update, answeredStatus_update, mapping_update, mapping_update, hs, hm]
  exact ⟨rfl, rfl⟩

theorem answer_baseRow (i j : Nat) {a b : DustRegistrationEvent}
    (h : registrationKey a = registrationKey b) : answer (baseRow s i a) = answer (baseRow s j b) := by
  rw [baseRow, baseRow, h]
  cases (s .cnightRegistrations)[registrationKey b]? <;> rfl

/-- No answer changes when an earlier event of the key moves to a block of its own. -/
def NothingUnseen (s : Store) (blockHeight : Nat) (earlier : List DustRegistrationEvent)
    (last : DustRegistrationEvent) : Prop :=
  ∀ event ∈ earlier,
    Kept writesAnsweredStatus (answeredStatus (baseRow s blockHeight last)) [event] last ∧
      Kept writesMapping (mapping (baseRow s blockHeight last)) [event] last

theorem answer_two (i j k : Nat) {event last : DustRegistrationEvent} (base : CnightRegistrationRecord) :
    answer (updateRegistration last i base) =
        answer (updateRegistration last k (updateRegistration event j base)) ↔
      Kept writesAnsweredStatus (answeredStatus base) [event] last ∧
        Kept writesMapping (mapping base) [event] last := by
  have hs := kept_iff writesAnsweredStatus (answeredStatus base) [event] last
  have hm := kept_iff writesMapping (mapping base) [event] last
  rw [answer_ext, answeredStatus_update, answeredStatus_update, answeredStatus_update,
    mapping_update, mapping_update, mapping_update, ← hs, ← hm]
  simp [lastWrite]

/-- Splitting the events of a block over two consecutive blocks gives the same answers. -/
def SplitAgrees (s s' : Store) (events : List DustRegistrationEvent) : Prop :=
  ∀ (first second : Block) (txs txs' : List AppliedTransaction) (key₁ key₂ : Bytes)
    (window₁ window₂ : LedgerStateWindow) (s₁ s₂ : Store) (ids ids₁ ids₂ : Counters),
    events = first.dustRegistrationEvents ++ second.dustRegistrationEvents →
    second.height = first.height + 1 →
    writeBlock s first txs key₁ window₁ ids = .ok (s₁, ids₁) →
    writeBlock s₁ second txs' key₂ window₂ ids₁ = .ok (s₂, ids₂) →
    ∀ key : Bytes, (s' .cnightRegistrations)[key]?.map answer =
      (s₂ .cnightRegistrations)[key]?.map answer

theorem eventsOf_append (key : Bytes) (xs ys : List DustRegistrationEvent) :
    eventsOf key (xs ++ ys) = eventsOf key xs ++ eventsOf key ys :=
  List.filter_append ..

theorem eventsOf_key {key : Bytes} {events : List DustRegistrationEvent} {event : DustRegistrationEvent}
    (h : event ∈ eventsOf key events) : registrationKey event = key := by
  simpa using (List.mem_filter.mp h).2

theorem split_row {s₁ : Store} {i j : Nat} {xs ys : List DustRegistrationEvent}
    (h₁ : s₁ .cnightRegistrations = commit s (xs.foldl (applyRegistrationEvent s i) [])
      .cnightRegistrations) (key : Bytes) :
    (commit s₁ (ys.foldl (applyRegistrationEvent s₁ j) []) .cnightRegistrations)[key]? =
      match (eventsOf key xs).getLast?, (eventsOf key ys).getLast? with
      | none, none => (s .cnightRegistrations)[key]?
      | some e, none => some (updateRegistration e i (baseRow s i e))
      | none, some e => some (updateRegistration e j (baseRow s j e))
      | some e, some last =>
          some (updateRegistration last j (updateRegistration e i (baseRow s i e))) := by
  have hrow₁ : ∀ k : Bytes, (s₁ .cnightRegistrations)[k]? =
      match (eventsOf k xs).getLast? with
      | none => (s .cnightRegistrations)[k]?
      | some last => some (updateRegistration last i (baseRow s i last)) := by
    intro k
    rw [h₁, batch_row]
    rfl
  rw [batch_row]
  cases hy : (eventsOf key ys).getLast? with
  | none =>
      show (s₁ .cnightRegistrations)[key]? = _
      rw [hrow₁]
      cases (eventsOf key xs).getLast? <;> rfl
  | some last =>
      have hkey : registrationKey last = key := eventsOf_key (List.mem_of_getLast? hy)
      have hbase : baseRow s₁ j last = ((s₁ .cnightRegistrations)[key]?).getD
          (newRegistration last j) := by rw [baseRow, hkey]
      simp only [hbase, hrow₁]
      cases hx : (eventsOf key xs).getLast? with
      | none => simp only [baseRow, hkey]
      | some e => rfl

theorem writeBlock_empty (s : Store) (block : Block) (ledgerStateKey : Bytes)
    (window : LedgerStateWindow) (ids : Counters) :
    ∃ s', writeBlock s block [] ledgerStateKey window ids = .ok (s', ids) :=
  ⟨_, writeBlock_ok.mpr ⟨Staged.start ids, [], rfl, rfl, rfl, rfl⟩⟩

theorem splitAgrees_iff
    (h : writeBlock s block transactions ledgerStateKey window ids = .ok (s', ids')) :
    SplitAgrees s s' block.dustRegistrationEvents ↔
      ∀ key earlier last, eventsOf key block.dustRegistrationEvents = earlier ++ [last] →
        NothingUnseen s block.height earlier last := by
  have hone : ∀ key : Bytes, (s' .cnightRegistrations)[key]? =
      match (eventsOf key block.dustRegistrationEvents).getLast? with
      | none => (s .cnightRegistrations)[key]?
      | some last => some (updateRegistration last block.height (baseRow s block.height last)) := by
    intro key
    rw [writeBlock_registrations h, batch_row]
    rfl
  constructor
  · intro hsplit key earlier last hlast event he
    obtain ⟨e₁, e₂, rfl⟩ := List.append_of_mem he
    have hcut : eventsOf key block.dustRegistrationEvents = (e₁ ++ [event]) ++ (e₂ ++ [last]) := by
      rw [hlast]
      simp
    obtain ⟨xs, ys, hevents, hx, hy⟩ := List.filter_eq_append_iff.mp hcut
    have hx' : eventsOf key xs = e₁ ++ [event] := hx
    have hy' : eventsOf key ys = e₂ ++ [last] := hy
    have hfirst : event ∈ eventsOf key xs := by rw [hx']; simp
    have hsecond : last ∈ eventsOf key ys := by rw [hy']; simp
    have hkey : registrationKey event = registrationKey last := by
      rw [eventsOf_key hfirst, eventsOf_key hsecond]
    obtain ⟨s₁, h₁⟩ := writeBlock_empty s
      { emptyBlock 0 zero_lt_u64 with dustRegistrationEvents := xs } [] [] ids
    obtain ⟨s₂, h₂⟩ := writeBlock_empty s₁
      { emptyBlock 1 one_lt_u64 with dustRegistrationEvents := ys } [] [] ids
    have hrow := hsplit _ _ [] [] [] [] [] [] s₁ s₂ ids ids ids hevents rfl h₁ h₂ key
    rw [hone, writeBlock_registrations h₂, split_row (writeBlock_registrations h₁), hevents,
      eventsOf_append, hx', hy', ← List.append_assoc, List.getLast?_concat, List.getLast?_concat,
      List.getLast?_concat] at hrow
    have hanswer := Option.some.inj hrow
    have hbase := answer_baseRow (s := s) 0 block.height hkey
    refine (answer_two block.height 0 1 _).mp (hanswer.trans ?_)
    exact answer_update 1 1 last (answer_update 0 0 event hbase)
  · intro hunseen first second txs txs' key₁ key₂ window₁ window₂ s₁ s₂ ids ids₁ ids₂ hevents hheight
      h₁ h₂ key
    rw [hone, writeBlock_registrations h₂, split_row (writeBlock_registrations h₁), hevents,
      eventsOf_append]
    rcases List.eq_nil_or_concat (eventsOf key second.dustRegistrationEvents) with
      hy | ⟨e₂, last, hy⟩
    · rw [hy, List.append_nil, List.getLast?_nil]
      cases hx : (eventsOf key first.dustRegistrationEvents).getLast? with
      | none => rfl
      | some e => exact congrArg some (answer_update _ _ e (answer_baseRow _ _ rfl))
    · rw [List.concat_eq_append] at hy
      rw [hy, ← List.append_assoc, List.getLast?_concat, List.getLast?_concat]
      cases hx : (eventsOf key first.dustRegistrationEvents).getLast? with
      | none => exact congrArg some (answer_update _ _ last (answer_baseRow _ _ rfl))
      | some e =>
          have hmem : e ∈ eventsOf key first.dustRegistrationEvents := List.mem_of_getLast? hx
          have hkey : registrationKey e = registrationKey last := by
            have hlast : last ∈ eventsOf key second.dustRegistrationEvents := by rw [hy]; simp
            rw [eventsOf_key hmem, eventsOf_key hlast]
          have hk := hunseen key (eventsOf key first.dustRegistrationEvents ++ e₂) last
            (by rw [hevents, eventsOf_append, hy, List.append_assoc]) e
            (List.mem_append_left _ hmem)
          refine congrArg some (((answer_two block.height first.height second.height _).mpr hk).trans ?_)
          exact answer_update _ _ last (answer_update _ _ e (answer_baseRow _ _ hkey.symm))

/-- When the registration table of a block is the fold of its events, one at a
time or split over two blocks. -/
theorem registrations_iff
    (h : writeBlock s block transactions ledgerStateKey window ids = .ok (s', ids')) :
    (s' .cnightRegistrations =
        applyOneByOne s block.height block.dustRegistrationEvents .cnightRegistrations ↔
      ∀ key earlier last, eventsOf key block.dustRegistrationEvents = earlier ++ [last] →
        NothingLost s block.height earlier last) ∧
    (SplitAgrees s s' block.dustRegistrationEvents ↔
      ∀ key earlier last, eventsOf key block.dustRegistrationEvents = earlier ++ [last] →
        NothingUnseen s block.height earlier last) := by
  refine ⟨?_, splitAgrees_iff h⟩
  rw [writeBlock_registrations h]
  constructor
  · intro heq key
    exact (row_eq_iff _ key).mp (by rw [heq])
  · intro hlost
    apply ext_get
    intro key
    exact (row_eq_iff _ key).mpr (hlost key)

def mappedThenRegistered : Block :=
  { emptyBlock 0 zero_lt_u64 with
    dustRegistrationEvents :=
      [.mappingAdded (.filled 29 1) [2] [9] 0, .registration (.filled 29 1) [2]] }

theorem registrations_iff_mapped : ∃ s' ids',
    writeBlock fresh mappedThenRegistered [] [] [] (Counters.load fresh) = .ok (s', ids') ∧
      (s' .cnightRegistrations = applyOneByOne fresh mappedThenRegistered.height
          mappedThenRegistered.dustRegistrationEvents .cnightRegistrations ↔
        ∀ key earlier last,
          eventsOf key mappedThenRegistered.dustRegistrationEvents = earlier ++ [last] →
          NothingLost fresh mappedThenRegistered.height earlier last) := by
  obtain ⟨s', h⟩ := writeBlock_empty fresh mappedThenRegistered [] [] (Counters.load fresh)
  exact ⟨s', _, h, (registrations_iff h).1⟩

/-- The registration reads the committed table, so its row has no mapping. -/
theorem registration_loses_mapping : ∃ s' ids',
    writeBlock fresh mappedThenRegistered [] [] [] (Counters.load fresh) = .ok (s', ids') ∧
      s' .cnightRegistrations ≠ applyOneByOne fresh mappedThenRegistered.height
        mappedThenRegistered.dustRegistrationEvents .cnightRegistrations ∧
      ¬ SplitAgrees fresh s' mappedThenRegistered.dustRegistrationEvents := by
  obtain ⟨s', h⟩ := writeBlock_empty fresh mappedThenRegistered [] [] (Counters.load fresh)
  refine ⟨s', _, h, ?_, ?_⟩
  · intro heq
    have hrow := congrArg (fun t : Table CnightRegistrationRecord =>
      t[registrationKey (.registration (.filled 29 1) [2])]?.map mapping) heq
    rw [writeBlock_registrations h] at hrow
    revert hrow
    decide
  · intro hsplit
    obtain ⟨-, hmapping⟩ := (splitAgrees_iff h).mp hsplit
      (registrationKey (.registration (.filled 29 1) [2]))
      [.mappingAdded (.filled 29 1) [2] [9] 0] (.registration (.filled 29 1) [2]) (by decide)
      _ List.mem_cons_self
    have hvalue := hmapping rfl _ rfl
    revert hvalue
    decide

end Blocks

section Rows

structure RowOf (key : Bytes) (record : CnightRegistrationRecord) : Prop where
  key : key = record.cardanoStakeKey ++ record.dustAddress
  stakeKey : record.cardanoStakeKey.length = 29
  live : record.valid = true → record.removedAtHeight = none

theorem RowOf.new (event : DustRegistrationEvent) (blockHeight : Nat) :
    RowOf (registrationKey event) (newRegistration event blockHeight) where
  key := rfl
  stakeKey := (stakeKeyAndAddress event).1.property
  live := fun _ => rfl

theorem RowOf.update {key : Bytes} {record : CnightRegistrationRecord} (h : RowOf key record)
    (event : DustRegistrationEvent) (blockHeight : Nat) :
    RowOf key (updateRegistration event blockHeight record) where
  key := by
    rw [(identity_update blockHeight event record).1, (identity_update blockHeight event record).2]
    exact h.key
  stakeKey := by
    rw [(identity_update blockHeight event record).1]
    exact h.stakeKey
  live := by
    cases event with
    | registration => exact fun _ => rfl
    | deregistration => exact fun hvalid => absurd hvalid Bool.false_ne_true
    | mappingAdded => exact fun _ => rfl
    | mappingRemoved => exact h.live

theorem run_registrations {blocks : List DerivedBlock} {s : Store} {ids : Counters} (h : Run blocks s ids) :
    ∀ (key : Bytes) (record : CnightRegistrationRecord),
      (s .cnightRegistrations)[key]? = some record → RowOf key record := by
  induction h with
  | start =>
      intro key record hget
      rw [fresh_other (by decide), get_empty] at hget
      cases hget
  | @step blocks s s' ids ids' d ledgerStateKey window h hroom hblock ih =>
      intro key record hget
      rw [writeBlock_registrations hblock, batch_row] at hget
      cases hlast : (eventsOf key d.block.dustRegistrationEvents).getLast? with
      | none =>
          rw [hlast] at hget
          exact ih key record hget
      | some last =>
          rw [hlast] at hget
          obtain rfl := Option.some.inj hget
          obtain rfl : registrationKey last = key := eventsOf_key (List.mem_of_getLast? hlast)
          refine RowOf.update ?_ last d.block.height
          cases hold : (s .cnightRegistrations)[registrationKey last]? with
          | none =>
              rw [baseRow, hold]
              exact RowOf.new last d.block.height
          | some old =>
              rw [baseRow, hold]
              exact ih _ old hold
  | scan h hscan ih =>
      rw [hscan _ (by decide)]
      exact ih

end Rows

end Nightfrost.Registrations
