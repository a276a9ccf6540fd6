import Nightfrost.Timeline
import Nightfrost.Pages

namespace Nightfrost.DustSync

open ByteOrder Tables Partitions Domain Schema WriteBlock MovingStore Api ExceptFold EntityLog
  BlockStep BlockRun Timeline Pages

structure DustSyncRequest where
  fromId : Nat := 0
  count : Nat := walletEventsDefaultCount
  fromId_lt : fromId < 2 ^ 64

structure DustSyncResult where
  events : List EventResponse
  scannedThrough : Nat
  highestEventId : Nat
  deriving DecidableEq

def dustLoop (count : Nat) : List Bytes → List EventResponse → Handler (List EventResponse)
  | [], events => pure events
  | key :: keys, events => do
      let eventId := fromBe key
      match ← query (fun s => (s .ledgerEvents)[be 8 eventId]?) with
      | none => .fail (.internal "missing DUST event")
      | some record =>
          let event ← EventResponse.new eventId record
          let events := events ++ [event]
          if events.length = count then pure events else dustLoop count keys events

/-- The next event id is read before the rows, which come from one snapshot. -/
def walletDustSync (request : DustSyncRequest) : Handler (PointResponse DustSyncResult) :=
  if ¬ (1 ≤ request.count ∧ request.count ≤ 50000) then
    .fail (.badRequest "count should be within range 1-50000")
  else do
    let highestEventId ← query (nextId · nextEventIdKey)
    let keys ← query (fun s =>
      (range (s .walletDustEvents) (.included (be 8 request.fromId)) .unbounded).map Prod.fst)
    let events ← dustLoop request.count keys []
    let scannedThrough :=
      match events.getLast? with
      | some event => event.id + 1
      | none => request.fromId
    let scannedThrough :=
      if events.length < request.count then highestEventId else scannedThrough
    response ⟨events, scannedThrough, highestEventId⟩

section Rows

def dustIds (events : List EventRecord) : List Nat :=
  (List.range events.length).filter
    (fun i => events[i]?.map (fun record => record.event.grouping) = some .dust)

theorem dustIds_sorted (events : List EventRecord) : (dustIds events).Pairwise (· < ·) :=
  List.pairwise_lt_range.filter _

theorem mem_dustIds {events : List EventRecord} {i : Nat} :
    i ∈ dustIds events ↔ ∃ record, events[i]? = some record ∧ record.event.grouping = .dust := by
  rw [dustIds, List.mem_filter, List.mem_range, decide_eq_true_eq, Option.map_eq_some_iff]
  constructor
  · rintro ⟨-, h⟩
    exact h
  · rintro ⟨record, hget, hdust⟩
    exact ⟨(List.getElem?_eq_some_iff.mp hget).1, record, hget, hdust⟩

theorem mem_dustRows {s : Store} {events : List EventRecord} (h : EventTables s events) {k : Bytes} :
    k ∈ s .walletDustEvents ↔ ∃ i ∈ dustIds events, k = be 8 i := by
  refine (h.dust k).trans ?_
  constructor
  · rintro ⟨i, record, hget, hk⟩
    rw [dustEventKeys] at hk
    split at hk
    · rename_i hdust
      exact ⟨i, mem_dustIds.mpr ⟨record, hget, hdust⟩, List.mem_singleton.mp hk⟩
    · cases hk
  · rintro ⟨i, hi, rfl⟩
    obtain ⟨record, hget, hdust⟩ := mem_dustIds.mp hi
    refine ⟨i, record, hget, ?_⟩
    rw [dustEventKeys, if_pos hdust]
    exact List.mem_cons_self

theorem dustIds_lt {s : Store} {events : List EventRecord} (h : EventTables s events) {i : Nat}
    (hi : i ∈ dustIds events) : i < 2 ^ 64 := by
  obtain ⟨record, hget, -⟩ := mem_dustIds.mp hi
  have := (List.getElem?_eq_some_iff.mp hget).1
  have := h.records.bound
  omega

theorem dustRows {s : Store} {events : List EventRecord} (h : EventTables s events) {fromId : Nat}
    (hfrom : fromId < 2 ^ 64) :
    (range (s .walletDustEvents) (.included (be 8 fromId)) .unbounded).map Prod.fst =
      (onward fromId (dustIds events)).map (be 8) := by
  refine eq_of_sorted (r := fun a b : Bytes => compare a b = .lt) ?_ ?_ ?_ ?_ ?_
  · intro a ha
    rw [Std.ReflOrd.compare_self] at ha
    cases ha
  · intro a b c
    exact Std.TransCmp.lt_trans
  · rw [List.pairwise_map]
    exact range_sorted _ _ _
  · rw [List.pairwise_map]
    refine ((dustIds_sorted events).filter _).imp_of_mem ?_
    intro a b ha hb hab
    rw [compare_be (dustIds_lt h (List.mem_of_mem_filter ha)) (dustIds_lt h (List.mem_of_mem_filter hb))]
    exact Nat.compare_eq_lt.mpr hab
  · intro k
    simp only [List.mem_map, mem_range, Prod.exists]
    constructor
    · rintro ⟨key, ⟨⟩, ⟨hrow, habove, -⟩, rfl⟩
      obtain ⟨i, hi, rfl⟩ := (mem_dustRows h).mp (mem_unit_iff.mpr hrow)
      refine ⟨i, mem_onward.mpr ⟨hi, ?_⟩, rfl⟩
      rw [Bound.above, compare_be hfrom (dustIds_lt h hi)] at habove
      exact Nat.isLE_compare.mp habove
    · rintro ⟨i, hi, rfl⟩
      obtain ⟨hi, hle⟩ := mem_onward.mp hi
      refine ⟨be 8 i, (), ⟨mem_unit_iff.mp ((mem_dustRows h).mpr ⟨i, hi, rfl⟩), ?_, rfl⟩, rfl⟩
      rw [Bound.above, compare_be hfrom (dustIds_lt h hi)]
      exact Nat.isLE_compare.mpr hle

end Rows

section Call

variable {σ : Nat → Store} {blocks : Nat → List DerivedBlock}

def dustFrom (blocks : List DerivedBlock) (fromId : Nat) : List Nat :=
  onward fromId (dustIds (logOf blocks).events)

theorem dustLoop_run (h : Growing σ blocks) {t₀ t count : Nat} (hle : t₀ ≤ t) {ids : List Nat}
    (hids : ∀ i ∈ ids, i ∈ dustIds (logOf (blocks t₀)).events) {events : List EventResponse}
    (hroom : events.length < count) :
    ∃ new t', (dustLoop count (ids.map (be 8)) events).run σ t = .ok (events ++ new, t') ∧
      new.map EventResponse.id = ids.take (count - events.length) := by
  induction ids generalizing t events with
  | nil => exact ⟨[], t, by rw [List.append_nil]; rfl, by simp⟩
  | cons i ids ih =>
      obtain ⟨record, hget, -⟩ := mem_dustIds.mp (hids i List.mem_cons_self)
      obtain ⟨runIds, hrun⟩ := h.run t₀
      have hlt := dustIds_lt hrun.holds.tables.events (hids i List.mem_cons_self)
      obtain ⟨block, -, hevent⟩ := h.eventResponse (Nat.le_succ_of_le hle) hget
      have hpage : count - events.length =
          (count - (events ++ [EventResponse.of i record block]).length) + 1 := by
        rw [List.length_append, List.length_singleton]
        omega
      rw [List.map_cons, dustLoop, run_bind, run_query]
      change ∃ new t', (match ((σ t) .ledgerEvents)[be 8 (fromBe (be 8 i))]? with
        | none => _
        | some record => _ : Handler _).run σ (t + 1) = _ ∧ _
      rw [fromBe_be hlt, h.event hle hget]
      change ∃ new t', (EventResponse.new i record >>= _ : Handler _).run σ (t + 1) = _ ∧ _
      rw [run_bind, hevent]
      change ∃ new t', (if (events ++ [EventResponse.of i record block]).length = count then _ else _ :
        Handler _).run σ (t + 1 + 1) = _ ∧ _
      split
      · rename_i hfull
        refine ⟨[EventResponse.of i record block], t + 1 + 1, rfl, ?_⟩
        rw [hpage, hfull, Nat.sub_self]
        rfl
      · rename_i hmore
        have hroom' : (events ++ [EventResponse.of i record block]).length < count := by
          rw [List.length_append, List.length_singleton] at hmore ⊢
          omega
        obtain ⟨new, t', hrest, hnew⟩ := ih (t := t + 1 + 1) (by omega)
          (fun j hj => hids j (List.mem_cons_of_mem _ hj)) hroom'
        refine ⟨EventResponse.of i record block :: new, t', by rw [hrest, List.append_assoc]; rfl, ?_⟩
        rw [hpage, List.take_succ_cons, List.map_cons, hnew]
        rfl

def pageOf (blocks : Nat → List DerivedBlock) (request : DustSyncRequest) (start : Nat) : List Nat :=
  (dustFrom (blocks (start + 1)) request.fromId).take request.count

def scannedThroughOf (blocks : Nat → List DerivedBlock) (request : DustSyncRequest) (start : Nat) : Nat :=
  if (pageOf blocks request start).length < request.count then
    (logOf (blocks start)).events.length
  else
    match (pageOf blocks request start).getLast? with
    | some last => last + 1
    | none => request.fromId

theorem nextEventId_eq (h : Growing σ blocks) (t : Nat) :
    nextId (σ t) nextEventIdKey = (logOf (blocks t)).events.length := by
  obtain ⟨ids, hrun⟩ := h.run t
  have hcounters := (hrun.cursor (h.consecutive t)).counters
  rw [hrun.holds.counters] at hcounters
  exact congrArg Counters.nextEventId hcounters

theorem walletDustSync_run (h : Growing σ blocks) (request : DustSyncRequest)
    (hcount : 1 ≤ request.count ∧ request.count ≤ 50000) (start : Nat) :
    ∃ answer finish, (walletDustSync request).run σ start = .ok (answer, finish) ∧
      start + 2 ≤ finish ∧
      answer.results.events.map EventResponse.id = pageOf blocks request start ∧
      answer.results.highestEventId = (logOf (blocks start)).events.length ∧
      answer.results.scannedThrough = scannedThroughOf blocks request start := by
  obtain ⟨runIds, hrun⟩ := h.run (start + 1)
  have hids : ∀ i ∈ dustFrom (blocks (start + 1)) request.fromId,
      i ∈ dustIds (logOf (blocks (start + 1))).events := fun i hi => (mem_onward.mp hi).1
  have hroom : ([] : List EventResponse).length < request.count := hcount.1
  obtain ⟨events, t, hloop, hpage⟩ := dustLoop_run h (Nat.le_succ (start + 1)) hids hroom
  rw [List.nil_append] at hloop
  obtain ⟨answer, finish, hresponse, hresults⟩ := h.response (T := DustSyncResult)
    ⟨events, if events.length < request.count then (logOf (blocks start)).events.length else
      match events.getLast? with
      | some event => event.id + 1
      | none => request.fromId, (logOf (blocks start)).events.length⟩ t
  have hpage' : events.map EventResponse.id = pageOf blocks request start := hpage
  refine ⟨answer, finish, ?_, ?_, ?_, ?_, ?_⟩
  · rw [walletDustSync, if_neg (not_not.mpr hcount), run_bind, run_query, nextEventId_eq h]
    change (query _ >>= _ : Handler _).run σ (start + 1) = _
    rw [run_bind, run_query]
    change (dustLoop request.count ((range ((σ (start + 1)) .walletDustEvents)
      (.included (be 8 request.fromId)) .unbounded).map Prod.fst) [] >>= _ : Handler _).run σ
        (start + 2) = _
    rw [dustRows hrun.holds.tables.events request.fromId_lt, run_bind, ← dustFrom, hloop]
    exact hresponse
  · exact Nat.le_trans (run_le hloop) (run_le hresponse)
  · rw [hresults, hpage']
  · rw [hresults]
  · rw [hresults, scannedThroughOf, ← hpage', List.length_map, List.getLast?_map]
    cases events.getLast? <;> rfl

theorem walletDustSync_ok (h : Growing σ blocks) {request : DustSyncRequest} {start finish : Nat}
    {answer : PointResponse DustSyncResult}
    (hrun : (walletDustSync request).run σ start = .ok (answer, finish)) :
    1 ≤ request.count ∧ start + 2 ≤ finish ∧
      answer.results.events.map EventResponse.id = pageOf blocks request start ∧
      answer.results.scannedThrough = scannedThroughOf blocks request start := by
  by_cases hcount : 1 ≤ request.count ∧ request.count ≤ 50000
  · obtain ⟨answer', finish', hrun', hfinish, hpage, -, hthrough⟩ :=
      walletDustSync_run h request hcount start
    obtain ⟨rfl, rfl⟩ := Prod.mk.inj (Except.ok.inj (hrun.symm.trans hrun'))
    exact ⟨hcount.1, hfinish, hpage, hthrough⟩
  · rw [walletDustSync, if_pos hcount] at hrun
    cases hrun

end Call

section Feed

structure DustCall where
  request : DustSyncRequest
  start : Nat
  finish : Nat
  answer : PointResponse DustSyncResult

def DustCall.ids (call : DustCall) : List Nat := call.answer.results.events.map EventResponse.id

def received (calls : List DustCall) : List Nat := calls.flatMap DustCall.ids

def scannedThrough (calls : List DustCall) : Nat :=
  (calls.getLast?.map (fun call => call.answer.results.scannedThrough)).getD 0

def finished (calls : List DustCall) : Nat := (calls.getLast?.map DustCall.finish).getD 0

/-- The calls of a client, each of which starts where the one before it ended. -/
inductive Feed (σ : Nat → Store) : List DustCall → Prop
  | start : Feed σ []
  | call {calls : List DustCall} (call : DustCall) (h : Feed σ calls)
      (hfrom : call.request.fromId = scannedThrough calls) (hstart : finished calls ≤ call.start)
      (hrun : (walletDustSync call.request).run σ call.start = .ok (call.answer, call.finish)) :
      Feed σ (calls ++ [call])

/-- The client has every dust event below the point it has reached, once and in
order, whatever the indexer has written since. -/
structure ExactlyOnce (σ : Nat → Store) (calls : List DustCall) : Prop where
  ascending : (received calls).Pairwise (· < ·)
  complete : ∀ t, finished calls ≤ t → ∀ eventId, eventId < 2 ^ 64 →
    (eventId ∈ received calls ↔
      eventId < scannedThrough calls ∧ be 8 eventId ∈ σ t .walletDustEvents)
  beyond : ∀ eventId ∈ received calls, eventId < scannedThrough calls
  monotone : (calls.map (fun call => call.answer.results.scannedThrough)).Pairwise (· ≤ ·)
  progress : ∀ call ∈ calls, call.ids.length = call.request.count ∨
    ∀ eventId, eventId < 2 ^ 64 → be 8 eventId ∈ σ call.start .walletDustEvents →
      eventId < call.answer.results.scannedThrough

/-- The page fills up, or no dust event was recorded between the reads of the
next event id and of the rows. -/
def Undisturbed (σ : Nat → Store) (call : DustCall) : Prop :=
  call.request.count ≤ (range (σ (call.start + 1) .walletDustEvents)
      (.included (be 8 call.request.fromId)) .unbounded).length ∨
    ∀ eventId, eventId < 2 ^ 64 → be 8 eventId ∈ σ (call.start + 1) .walletDustEvents →
      eventId < nextId (σ call.start) nextEventIdKey

variable {σ : Nat → Store} {blocks : Nat → List DerivedBlock} {calls : List DustCall}

theorem mem_walletDustEvents (h : Growing σ blocks) {t eventId : Nat} (hlt : eventId < 2 ^ 64) :
    be 8 eventId ∈ σ t .walletDustEvents ↔ eventId ∈ dustIds (logOf (blocks t)).events := by
  obtain ⟨runIds, hrun⟩ := h.run t
  have htables := hrun.holds.tables.events
  rw [mem_dustRows htables]
  constructor
  · rintro ⟨i, hi, he⟩
    rwa [be_injective (w := 8) hlt (dustIds_lt htables hi) he]
  · intro hi
    exact ⟨eventId, hi, rfl⟩

theorem undisturbed_iff (h : Growing σ blocks) (call : DustCall) :
    Undisturbed σ call ↔
      call.request.count ≤ (dustFrom (blocks (call.start + 1)) call.request.fromId).length ∨
      ∀ i ∈ dustIds (logOf (blocks (call.start + 1))).events,
        i < (logOf (blocks call.start)).events.length := by
  obtain ⟨runIds, hrun⟩ := h.run (call.start + 1)
  have htables := hrun.holds.tables.events
  have hrows := congrArg List.length (dustRows htables call.request.fromId_lt)
  rw [List.length_map, List.length_map] at hrows
  rw [Undisturbed, hrows, nextEventId_eq h, dustFrom]
  apply or_congr_right
  constructor
  · intro hall i hi
    exact hall i (dustIds_lt htables hi) ((mem_walletDustEvents h (dustIds_lt htables hi)).mpr hi)
  · intro hall i hlt hi
    exact hall i ((mem_walletDustEvents h hlt).mp hi)

theorem below_grown (h : Growing σ blocks) {t t' n : Nat} (hle : t ≤ t')
    (hn : n ≤ (logOf (blocks t)).events.length) :
    below n (dustIds (logOf (blocks t')).events) = below n (dustIds (logOf (blocks t)).events) := by
  obtain ⟨new, hnew, -⟩ := (h.grown hle).events
  refine eq_of_sorted (r := (· < ·)) (fun a => Nat.lt_irrefl a) (fun a b c => Nat.lt_trans)
    ((dustIds_sorted _).filter _) ((dustIds_sorted _).filter _) (fun i => ?_)
  rw [mem_below, mem_below, mem_dustIds, mem_dustIds, hnew]
  apply and_congr_left
  intro hlt
  rw [List.getElem?_append_left (Nat.lt_of_lt_of_le hlt hn)]

structure Reached (blocks : Nat → List DerivedBlock) (calls : List DustCall) : Prop where
  bound : scannedThrough calls ≤ (logOf (blocks (finished calls))).events.length
  ids : received calls =
    below (scannedThrough calls) (dustIds (logOf (blocks (finished calls))).events)

@[simp] theorem received_push (calls : List DustCall) (call : DustCall) :
    received (calls ++ [call]) = received calls ++ call.ids := by
  simp [received]

@[simp] theorem scannedThrough_push (calls : List DustCall) (call : DustCall) :
    scannedThrough (calls ++ [call]) = call.answer.results.scannedThrough := by
  simp [scannedThrough]

@[simp] theorem finished_push (calls : List DustCall) (call : DustCall) :
    finished (calls ++ [call]) = call.finish := by
  simp [finished]

section Step

variable {call : DustCall} (h : Growing σ blocks) (hr : Reached blocks calls)
  (hfrom : call.request.fromId = scannedThrough calls) (hstart : finished calls ≤ call.start)
  (hrun : (walletDustSync call.request).run σ call.start = .ok (call.answer, call.finish))

include h

theorem log_le {t t' : Nat} (hle : t ≤ t') :
    (logOf (blocks t)).events.length ≤ (logOf (blocks t')).events.length := by
  obtain ⟨new, hnew, -⟩ := (h.grown hle).events
  rw [hnew, List.length_append]
  exact Nat.le_add_right _ _

include hrun

theorem call_short (hshort : call.ids.length < call.request.count) :
    call.ids = dustFrom (blocks (call.start + 1)) call.request.fromId ∧
      call.answer.results.scannedThrough = (logOf (blocks call.start)).events.length := by
  obtain ⟨-, -, hpage, hthrough⟩ := walletDustSync_ok h hrun
  have hids : call.ids = pageOf blocks call.request call.start := hpage
  rw [hids] at hshort ⊢
  refine ⟨List.take_of_length_le ?_, by rw [hthrough, scannedThroughOf, if_pos hshort]⟩
  rw [pageOf, List.length_take] at hshort
  omega

theorem call_full (hfull : ¬ call.ids.length < call.request.count) :
    ∃ last, call.ids.getLast? = some last ∧ call.answer.results.scannedThrough = last + 1 := by
  obtain ⟨hcount, -, hpage, hthrough⟩ := walletDustSync_ok h hrun
  have hids : call.ids = pageOf blocks call.request call.start := hpage
  rw [hids] at hfull ⊢
  have hne : pageOf blocks call.request call.start ≠ [] := by
    intro hnil
    rw [hnil] at hfull
    exact hfull hcount
  rw [hthrough, scannedThroughOf, if_neg hfull, List.getLast?_eq_some_getLast hne]
  exact ⟨_, rfl, rfl⟩

theorem call_progress : call.ids.length = call.request.count ∨
    ∀ eventId, eventId < 2 ^ 64 → be 8 eventId ∈ σ call.start .walletDustEvents →
      eventId < call.answer.results.scannedThrough := by
  by_cases hshort : call.ids.length < call.request.count
  · refine .inr fun eventId hlt hmem => ?_
    rw [(call_short h hrun hshort).2]
    obtain ⟨record, hget, -⟩ := mem_dustIds.mp ((mem_walletDustEvents h hlt).mp hmem)
    exact (List.getElem?_eq_some_iff.mp hget).1
  · obtain ⟨-, -, hpage, -⟩ := walletDustSync_ok h hrun
    have hids : call.ids = pageOf blocks call.request call.start := hpage
    have hle : call.ids.length ≤ call.request.count := by
      rw [hids, pageOf, List.length_take]
      exact Nat.min_le_left _ _
    exact .inl (by omega)

include hr hfrom hstart

theorem Reached.step (hu : Undisturbed σ call) : Reached blocks (calls ++ [call]) ∧
    scannedThrough calls ≤ call.answer.results.scannedThrough := by
  obtain ⟨-, hfinish, hpage, -⟩ := walletDustSync_ok h hrun
  have hids : call.ids = pageOf blocks call.request call.start := hpage
  have hle₀ := log_le h hstart
  have hle₁ := log_le h (Nat.le_succ call.start)
  have hle₂ := log_le h (show call.start ≤ call.finish by omega)
  have hbound := hr.bound
  have hreceived : received calls =
      below (scannedThrough calls) (dustIds (logOf (blocks (call.start + 1))).events) := by
    rw [hr.ids, below_grown h (show finished calls ≤ call.start + 1 by omega) hbound]
  have hsorted := dustIds_sorted (logOf (blocks (call.start + 1))).events
  by_cases hshort : call.ids.length < call.request.count
  · obtain ⟨hall, hthrough⟩ := call_short h hrun hshort
    have hearly : ∀ i ∈ dustIds (logOf (blocks (call.start + 1))).events,
        i < (logOf (blocks call.start)).events.length := by
      refine ((undisturbed_iff h call).mp hu).resolve_left ?_
      rw [← hall]
      exact Nat.not_le.mpr hshort
    refine ⟨⟨?_, ?_⟩, ?_⟩
    · rwa [scannedThrough_push, finished_push, hthrough]
    · rw [received_push, scannedThrough_push, finished_push, hreceived, hall, dustFrom, hfrom,
        below_append_onward hsorted, hthrough, below_grown h (by omega) (Nat.le_refl _),
        ← below_grown h (Nat.le_succ call.start) (Nat.le_refl _)]
      exact (filter_pos_self (fun i hi => by simpa using hearly i hi)).symm
    · rw [hthrough]
      omega
  · obtain ⟨last, hlast, hthrough⟩ := call_full h hrun hshort
    rw [hids, pageOf, dustFrom, hfrom] at hlast
    obtain ⟨hmem, hge⟩ := mem_onward.mp (List.mem_of_mem_take (List.mem_of_getLast? hlast))
    obtain ⟨record, hget, -⟩ := mem_dustIds.mp hmem
    have hlt := (List.getElem?_eq_some_iff.mp hget).1
    have hle₃ := log_le h (show call.start + 1 ≤ call.finish by omega)
    refine ⟨⟨?_, ?_⟩, ?_⟩
    · rw [scannedThrough_push, finished_push, hthrough]
      omega
    · rw [received_push, scannedThrough_push, finished_push, hreceived, hids, pageOf, dustFrom, hfrom,
        below_append_page hsorted hlast, hthrough,
        below_grown h (show call.start + 1 ≤ call.finish by omega) hlt]
    · rw [hthrough]
      omega

theorem undisturbed_of_beyond (hbeyond : ∀ eventId ∈ call.ids, eventId < call.answer.results.scannedThrough) :
    Undisturbed σ call := by
  rw [undisturbed_iff h]
  by_contra hnot
  obtain ⟨hroom, hlate⟩ := not_or.mp hnot
  push Not at hlate
  obtain ⟨i, hi, hge⟩ := hlate
  obtain ⟨-, -, hpage, -⟩ := walletDustSync_ok h hrun
  have hids : call.ids = pageOf blocks call.request call.start := hpage
  have hshort : call.ids.length < call.request.count := by
    rw [hids, pageOf, List.length_take]
    omega
  obtain ⟨hall, hthrough⟩ := call_short h hrun hshort
  have hle := log_le h hstart
  have hbound := hr.bound
  have hmem : i ∈ call.ids := by
    rw [hall, dustFrom]
    exact mem_onward.mpr ⟨hi, by omega⟩
  have := hbeyond i hmem
  omega

end Step

def Ascends (calls : List DustCall) : Prop :=
  (calls.map (fun call => call.answer.results.scannedThrough)).Pairwise (· ≤ ·) ∧
    ∀ call ∈ calls, call.answer.results.scannedThrough ≤ scannedThrough calls

theorem Ascends.push {call : DustCall} (h : Ascends calls)
    (hle : scannedThrough calls ≤ call.answer.results.scannedThrough) : Ascends (calls ++ [call]) := by
  constructor
  · rw [List.map_append, List.pairwise_append]
    refine ⟨h.1, List.pairwise_singleton _ _, ?_⟩
    intro a ha b hb
    obtain ⟨earlier, he, rfl⟩ := List.mem_map.mp ha
    obtain rfl := List.mem_singleton.mp hb
    exact Nat.le_trans (h.2 earlier he) hle
  · intro c hc
    rw [scannedThrough_push]
    rcases List.mem_append.mp hc with hc | hc
    · exact Nat.le_trans (h.2 c hc) hle
    · rw [List.mem_singleton.mp hc]

theorem Feed.reached (h : Growing σ blocks) (hf : Feed σ calls)
    (hu : ∀ call ∈ calls, Undisturbed σ call) : Reached blocks calls ∧ Ascends calls := by
  induction hf with
  | start =>
      refine ⟨⟨Nat.zero_le _, ?_⟩, List.Pairwise.nil, fun call hc => absurd hc List.not_mem_nil⟩
      exact (List.filter_eq_nil_iff.mpr (fun i _ => by simp [scannedThrough])).symm
  | @call calls call hf hfrom hstart hrun ih =>
      obtain ⟨hr, ha⟩ := ih (fun c hc => hu c (List.mem_append_left _ hc))
      obtain ⟨hr', hle⟩ := hr.step h hfrom hstart hrun (hu call (by simp))
      exact ⟨hr', ha.push hle⟩

theorem Feed.progress (h : Growing σ blocks) (hf : Feed σ calls) :
    ∀ call ∈ calls, call.ids.length = call.request.count ∨
      ∀ eventId, eventId < 2 ^ 64 → be 8 eventId ∈ σ call.start .walletDustEvents →
        eventId < call.answer.results.scannedThrough := by
  induction hf with
  | start => intro call hc; cases hc
  | call call hf hfrom hstart hrun ih =>
      intro c hc
      rcases List.mem_append.mp hc with hc | hc
      · exact ih c hc
      · obtain rfl := List.mem_singleton.mp hc
        exact call_progress h hrun

theorem Feed.exactlyOnce (h : Growing σ blocks) (hf : Feed σ calls)
    (hu : ∀ call ∈ calls, Undisturbed σ call) : ExactlyOnce σ calls := by
  obtain ⟨hr, ha⟩ := hf.reached h hu
  refine ⟨?_, ?_, ?_, ha.1, hf.progress h⟩
  · rw [hr.ids]
    exact (dustIds_sorted _).filter _
  · intro t hle eventId hlt
    rw [mem_walletDustEvents h hlt, hr.ids, ← below_grown h hle hr.bound, mem_below]
    exact and_comm
  · intro eventId hmem
    rw [hr.ids] at hmem
    exact (mem_below.mp hmem).2

theorem Feed.earlier (hf : Feed σ calls) {done : List DustCall} (hdone : done <+: calls) :
    Feed σ done := by
  induction hf with
  | start =>
      obtain rfl := List.prefix_nil.mp hdone
      exact .start
  | call call hf hfrom hstart hrun ih =>
      rcases List.prefix_concat_iff.mp hdone with rfl | hearlier
      · exact .call call hf hfrom hstart hrun
      · exact ih hearlier

/-- Every call answers, and the feed is exactly-once throughout exactly when no
call is disturbed by a block between its two reads. -/
theorem feed_exactlyOnce_iff (h : Growing σ blocks) :
    (∀ request start, 1 ≤ request.count ∧ request.count ≤ 50000 →
      ∃ answer finish, (walletDustSync request).run σ start = .ok (answer, finish)) ∧
    ∀ calls, Feed σ calls →
      ((∀ done, done <+: calls → ExactlyOnce σ done) ↔ ∀ call ∈ calls, Undisturbed σ call) := by
  constructor
  · intro request start hcount
    obtain ⟨answer, finish, hrun, -⟩ := walletDustSync_run h request hcount start
    exact ⟨answer, finish, hrun⟩
  · intro calls hf
    constructor
    · intro hall
      induction hf with
      | start => intro call hc; cases hc
      | @call calls call hf hfrom hstart hrun ih =>
          have hearlier := ih (fun done hdone => hall done (hdone.trans (List.prefix_append _ _)))
          obtain ⟨hr, -⟩ := hf.reached h hearlier
          intro c hc
          rcases List.mem_append.mp hc with hc | hc
          · exact hearlier c hc
          · obtain rfl := List.mem_singleton.mp hc
            have honce := hall (calls ++ [c]) (List.prefix_refl _)
            refine undisturbed_of_beyond h hr hfrom hstart hrun (fun eventId hmem => ?_)
            have hlt := honce.beyond eventId (by rw [received_push]; exact List.mem_append_right _ hmem)
            rwa [scannedThrough_push] at hlt
    · intro hu done hdone
      exact (hf.earlier hdone).exactlyOnce h (fun call hc => hu call (hdone.subset hc))

section Samples

def dustTransaction : AppliedTransaction := { emptyTransaction with ledgerEvents := [dustEvent] }

def dustBlocks : List DerivedBlock :=
  [⟨emptyBlock 0 zero_lt_u64, [dustTransaction], by simp [Derived, dustTransaction, emptyTransaction]⟩]

def dustStore : Store × Counters :=
  (writeBlock fresh (emptyBlock 0 zero_lt_u64) [dustTransaction] [] []
    (Counters.load fresh)).toOption.getD (fresh, Counters.load fresh)

theorem run_dustStore : Run dustBlocks dustStore.1 dustStore.2 :=
  Run.start.step _ [] [] (by decide +kernel) (ok_of_toBool (by decide +kernel) (fresh, Counters.load fresh))

theorem consecutive_dustBlocks : Consecutive dustBlocks := by
  intro i d hd
  match i with
  | 0 => cases hd; rfl
  | i + 1 => cases hd

theorem growing_dust :
    Growing (fun t => if t = 0 then fresh else dustStore.1) (fun t => if t = 0 then [] else dustBlocks) := by
  constructor
  · intro t
    cases t with
    | zero => exact ⟨_, .start⟩
    | succ t => exact ⟨_, run_dustStore⟩
  · intro t
    cases t with
    | zero => exact fun i d hd => by cases hd
    | succ t => exact consecutive_dustBlocks
  · intro t
    cases t with
    | zero => exact List.nil_prefix
    | succ t => exact List.prefix_refl _

def fromStart : DustSyncRequest := ⟨0, 10, zero_lt_u64⟩

theorem feed_exactlyOnce_iff_quiet : ∃ call,
    Feed (fun t => if t = 0 then fresh else dustStore.1) [call] ∧ call.ids = [0] ∧
      ExactlyOnce (fun t => if t = 0 then fresh else dustStore.1) [call] := by
  obtain ⟨answer, finish, hrun, -, hpage, -, -⟩ :=
    walletDustSync_run growing_dust fromStart (by decide) 1
  have hfeed : Feed (fun t => if t = 0 then fresh else dustStore.1)
      [⟨fromStart, 1, finish, answer⟩] :=
    Feed.start.call ⟨fromStart, 1, finish, answer⟩ rfl (Nat.zero_le _) hrun
  have hids : DustCall.ids ⟨fromStart, 1, finish, answer⟩ = [0] :=
    hpage.trans (by decide +kernel)
  refine ⟨_, hfeed, hids, ?_⟩
  refine (((feed_exactlyOnce_iff growing_dust).2 _ hfeed).mpr ?_) _ (List.prefix_refl _)
  intro call hc
  obtain rfl := List.mem_singleton.mp hc
  refine (undisturbed_iff growing_dust _).mpr (.inr fun i hi => ?_)
  obtain ⟨record, hget, -⟩ := mem_dustIds.mp hi
  exact (List.getElem?_eq_some_iff.mp hget).1

/-- The rows are newer than the next event id, so the next call gets them again. -/
theorem feed_repeats : ∃ σ blocks calls, Growing σ blocks ∧ Feed σ calls ∧
    received calls = [0, 0] ∧ ¬ ExactlyOnce σ calls := by
  obtain ⟨answer, finish, hrun, -, hpage, -, hthrough⟩ :=
    walletDustSync_run growing_dust fromStart (by decide) 0
  obtain ⟨answer', finish', hrun', -, hpage', -, -⟩ :=
    walletDustSync_run growing_dust fromStart (by decide) (finish + 1)
  have hzero : answer.results.scannedThrough = 0 := hthrough.trans (by decide +kernel)
  have hfeed := (Feed.start.call ⟨fromStart, 0, finish, answer⟩ rfl (Nat.zero_le _) hrun).call
    ⟨fromStart, finish + 1, finish', answer'⟩ hzero.symm (Nat.le_succ _) hrun'
  have hfirst : DustCall.ids ⟨fromStart, 0, finish, answer⟩ = [0] := hpage.trans (by decide +kernel)
  have hsecond : DustCall.ids ⟨fromStart, finish + 1, finish', answer'⟩ = [0] := by
    have hlate : dustFrom (if finish + 1 + 1 = 0 then [] else dustBlocks) 0 = dustFrom dustBlocks 0 :=
      rfl
    apply hpage'.trans
    rw [pageOf]
    exact (congrArg (List.take 10) hlate).trans (by decide +kernel)
  have hreceived : received ([] ++ [⟨fromStart, 0, finish, answer⟩] ++
      [⟨fromStart, finish + 1, finish', answer'⟩]) = [0, 0] := by
    rw [received_push, received_push, hfirst, hsecond]
    rfl
  refine ⟨_, _, _, growing_dust, hfeed, hreceived, fun honce => ?_⟩
  have hsorted := honce.ascending
  rw [hreceived] at hsorted
  revert hsorted
  decide

end Samples

end Feed

end Nightfrost.DustSync
