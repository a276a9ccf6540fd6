import Nightfrost.WalletEvents
import Nightfrost.SyncDelivery
import Nightfrost.Base64

namespace Nightfrost.WalletFeed

open ByteOrder Tables Partitions Domain Schema WriteBlock MovingStore Api ExceptFold EntityLog
  BlockRun Timeline Cursors Pages Listings Endpoints ShieldedSync Lookups WalletEvents

section Rows

def rowsOf (log : ChainLog) (fromId count : Nat) : List EventResponse :=
  ((entriesFrom log.events fromId).take count).filterMap (walletRow log)

theorem entriesFrom_drop (events : List EventRecord) (fromId : Nat) :
    entriesFrom events fromId = (entriesFrom events 0).drop fromId := by
  apply List.ext_getElem?
  intro i
  rw [entriesFrom, entriesFrom, List.drop_zero, List.getElem?_drop, List.getElem?_zipIdx,
    List.getElem?_zipIdx, List.getElem?_drop, Nat.zero_add]

theorem rowsOf_append (log : ChainLog) (fromId count : Nat) :
    rowsOf log 0 fromId ++ rowsOf log fromId count = rowsOf log 0 (fromId + count) := by
  rw [rowsOf, rowsOf, rowsOf, entriesFrom_drop log.events fromId, ← List.filterMap_append,
    ← List.take_add]

theorem take_ids (events : List EventRecord) (fromId count : Nat) :
    ((entriesFrom events fromId).take count).map Prod.snd =
      List.range' fromId (min count (events.length - fromId)) := by
  rw [List.map_take, entriesFrom, List.zipIdx_map_snd, List.length_drop]
  rcases Nat.le_total count (events.length - fromId) with hle | hle
  · rw [Nat.min_eq_left hle, List.take_range'_of_length_ge hle]
  · rw [Nat.min_eq_right hle, List.take_range'_of_length_le hle]

theorem mem_rowsOf {log : ChainLog} {n : Nat} {row : EventResponse} :
    row ∈ rowsOf log 0 n ↔ ∃ id record, id < n ∧ log.events[id]? = some record ∧
      walletRow log (record, id) = some row := by
  rw [rowsOf, List.mem_filterMap]
  constructor
  · rintro ⟨⟨record, id⟩, hmem, hrow⟩
    have hget := (mem_entriesFrom.mp (List.mem_of_mem_take hmem)).1
    have hid : id ∈ ((entriesFrom log.events 0).take n).map Prod.snd := List.mem_map_of_mem hmem
    rw [take_ids, List.mem_range'_1] at hid
    exact ⟨id, record, by omega, hget, hrow⟩
  · rintro ⟨id, record, hlt, hget, hrow⟩
    have hlen := (List.getElem?_eq_some_iff.mp hget).1
    have hid : id ∈ ((entriesFrom log.events 0).take n).map Prod.snd := by
      rw [take_ids, List.mem_range'_1]
      omega
    obtain ⟨⟨record', id'⟩, hmem, rfl⟩ := List.mem_map.mp hid
    have hget' := (mem_entriesFrom.mp (List.mem_of_mem_take hmem)).1
    obtain rfl := Option.some.inj (hget.symm.trans hget')
    exact ⟨_, hmem, hrow⟩

theorem walletRow_id {log : ChainLog} {entry : EventRecord × Nat} {row : EventResponse}
    (h : walletRow log entry = some row) : row.id = entry.2 := by
  rw [walletRow] at h
  split at h
  · cases h
  · obtain ⟨block, -, rfl⟩ := Option.map_eq_some_iff.mp h
    rfl

theorem rowsOf_sorted (log : ChainLog) (fromId count : Nat) :
    (rowsOf log fromId count).Pairwise (fun a b => a.id < b.id) := by
  rw [rowsOf, List.pairwise_filterMap]
  refine ((entriesFrom_sorted log.events fromId).sublist (List.take_sublist _ _)).imp ?_
  intro a b hab x hx y hy
  rw [walletRow_id hx, walletRow_id hy]
  exact hab

variable {σ : Nat → Store} {blocks : Nat → List DerivedBlock} {t₀ t t' : Nat} {anchor : TipAnchor}

theorem walletRow_later (h : Growing σ blocks) (hle : t ≤ t') {entry : EventRecord × Nat}
    (hget : (logOf (blocks t)).events[entry.2]? = some entry.1) :
    walletRow (logOf (blocks t')) entry = walletRow (logOf (blocks t)) entry := by
  obtain ⟨new, hnew, -⟩ := (h.grown hle).events
  have hget' : (logOf (blocks t')).events[entry.2]? = some entry.1 := by
    rw [hnew, List.getElem?_append_left (List.getElem?_eq_some_iff.mp hget).1]
    exact hget
  obtain ⟨block, hblock, hrun⟩ := h.eventResponse hle hget
  obtain ⟨block', hblock', hrun'⟩ := h.eventResponse (Nat.le_refl t') hget'
  have hsame : EventResponse.of entry.2 entry.1 block' = EventResponse.of entry.2 entry.1 block :=
    (Prod.mk.inj (Except.ok.inj (hrun'.symm.trans hrun))).1
  rw [walletRow, walletRow, hblock, hblock', Option.map_some, Option.map_some, hsame]

theorem rowsOf_later (h : Growing σ blocks) (hle : t ≤ t') {n : Nat}
    (hn : n ≤ (logOf (blocks t)).events.length) :
    rowsOf (logOf (blocks t')) 0 n = rowsOf (logOf (blocks t)) 0 n := by
  obtain ⟨new, hnew, -⟩ := (h.grown hle).events
  have hentries : (entriesFrom (logOf (blocks t')).events 0).take n =
      (entriesFrom (logOf (blocks t)).events 0).take n := by
    rw [hnew, entriesFrom, entriesFrom, List.drop_zero, List.drop_zero, List.zipIdx_append]
    apply List.take_append_of_le_length
    rw [List.length_zipIdx]
    exact hn
  rw [rowsOf, rowsOf, hentries]
  refine List.filterMap_congr fun e he => walletRow_later h hle ?_
  exact (mem_entriesFrom.mp (List.mem_of_mem_take he)).1

/-- The events of a later moment that are not above an anchor are those of the
moment of the anchor. -/
theorem upToHeight_anchored (h : Growing σ blocks) (ha : Anchored (blocks t₀) anchor) (hle : t₀ ≤ t)
    (fromId : Nat) :
    upToHeight anchor.height (entriesFrom (logOf (blocks t)).events fromId) =
      entriesFrom (logOf (blocks t₀)).events fromId := by
  obtain ⟨new, hnew, hheights⟩ := (h.grown hle).events
  have hheight := ha.height
  refine eq_of_sorted (r := fun a b : EventRecord × Nat => a.2 < b.2) (fun a => Nat.lt_irrefl _)
    (fun a b c => Nat.lt_trans) ((entriesFrom_sorted _ _).filter _) (entriesFrom_sorted _ _) ?_
  intro e
  rw [upToHeight, List.mem_filter, decide_eq_true_eq, mem_entriesFrom, mem_entriesFrom, hnew]
  constructor
  · rintro ⟨⟨hget, hfrom⟩, hbelow⟩
    refine ⟨?_, hfrom⟩
    by_cases hlt : e.2 < (logOf (blocks t₀)).events.length
    · rwa [List.getElem?_append_left hlt] at hget
    · rw [List.getElem?_append_right (Nat.le_of_not_lt hlt)] at hget
      have := hheights e.1 (List.mem_of_getElem? hget)
      omega
  · rintro ⟨hget, hfrom⟩
    have hlow := h.event_height hget
    refine ⟨⟨?_, hfrom⟩, by omega⟩
    rw [List.getElem?_append_left (List.getElem?_eq_some_iff.mp hget).1]
    exact hget

end Rows

section Page

variable {libs : WalletLibs} {codec : CursorCodec} {σ : Nat → Store}
  {blocks : Nat → List DerivedBlock} {viewingKey : ByteArr 32} {t₀ t t' : Nat} {anchor : TipAnchor}
  {request : WalletEventsRequest} {answer : ApiResponse WalletEventsResult}

def anchoredEvents (blocks : Nat → List DerivedBlock) (t₀ : Nat) : Nat :=
  (logOf (blocks t₀)).events.length

/-- The answer of a page that starts at an id, under the anchor of a moment. -/
structure PageOf (codec : CursorCodec) (blocks : Nat → List DerivedBlock) (viewingKey : ByteArr 32)
    (t₀ : Nat) (anchor : TipAnchor) (request : WalletEventsRequest) (first : Nat)
    (answer : ApiResponse WalletEventsResult) : Prop where
  events : answer.results.events.map WalletEventResponse.event =
    rowsOf (logOf (blocks t₀)) first request.count
  through : answer.results.scannedThrough =
    if first < anchoredEvents blocks t₀ then min (first + request.count) (anchoredEvents blocks t₀)
    else request.eventFrom.fromId
  next : answer.nextCursor =
    if first + request.count < anchoredEvents blocks t₀ then
      some (codec.encode (walletScope request.eventFrom viewingKey) anchor
        (be 8 (first + request.count - 1)))
    else none
  tip : answer.tip = some (TipResponse.from anchor)

theorem walletLower_above (eventFrom : EventFrom) {position : Option Nat}
    (hposition : ∀ p, position = some p → p < 2 ^ 64) {id : Nat} (hid : id < 2 ^ 64) :
    (walletLower eventFrom position).above (be 8 id) = true ↔
      position.elim eventFrom.fromId (· + 1) ≤ id := by
  cases position with
  | none =>
      show (compare (be 8 eventFrom.fromId) (be 8 id)).isLE = true ↔ _
      rw [compare_be eventFrom.fromId_lt hid]
      exact Nat.isLE_compare
  | some p =>
      show (compare (be 8 p) (be 8 id) == .lt) = true ↔ _
      rw [compare_be (hposition p rfl) hid, beq_iff_eq, Nat.compare_eq_lt]
      rfl

theorem walletPosition_ok (position : Option Nat) (hposition : ∀ p, position = some p → p < 2 ^ 64) :
    walletPosition (position.map (be 8)) = .ok position := by
  cases position with
  | none => rfl
  | some p =>
      rw [Option.map_some, walletPosition, if_pos (be_length 8 p),
        fromBe_be (show p < 256 ^ 8 from hposition p rfl)]

theorem last_taken (events : List EventRecord) (first count : Nat) :
    (((entriesFrom events first).take count).getLast?).map Prod.snd =
      if min count (events.length - first) = 0 then none
      else some (first + min count (events.length - first) - 1) := by
  rw [← List.getLast?_map, take_ids, List.getLast?_range']

theorem walletPage_ok (h : Growing σ blocks) (ha : Anchored (blocks t₀) anchor) (hle : t₀ ≤ t)
    (hcount : 1 ≤ request.count) (position : Option Nat)
    (hposition : ∀ p, position = some p → p < 2 ^ 64)
    (hrun : (walletPage libs codec request viewingKey ⟨some anchor, position.map (be 8)⟩).run σ t =
      .ok (answer, t')) :
    PageOf codec blocks viewingKey t₀ anchor request
      (position.elim request.eventFrom.fromId (· + 1)) answer := by
  obtain ⟨ids, hstore⟩ := h.run t
  have hindexed := hstore.holds.tables.events.records
  have hlen : (logOf (blocks t)).events.length < 2 ^ 64 := by
    have hlt : ids.nextEventId < 2 ^ 64 := hstore.room.events
    rw [hstore.holds.counters] at hlt
    exact hlt
  obtain ⟨first, hfirst⟩ : ∃ first, first = position.elim request.eventFrom.fromId (· + 1) := ⟨_, rfl⟩
  obtain ⟨found, t₁, hfound, hrest⟩ := run_bind_ok.mp hrun
  rw [walletPosition_ok position hposition] at hfound
  obtain ⟨hok, rfl⟩ := run_liftExcept.mp hfound
  obtain rfl := Except.ok.inj hok
  obtain ⟨entries, t₂, hread, hrest⟩ := run_bind_ok.mp hrest
  obtain ⟨hentries, rfl⟩ := Prod.mk.inj (Except.ok.inj hread)
  dsimp only at hentries
  rw [eventRows hindexed (fun id => walletLower_above request.eventFrom hposition), ← hfirst]
    at hentries
  subst hentries
  obtain ⟨scan, t₃, hloop, hrest⟩ := run_bind_ok.mp hrest
  obtain ⟨highest, t₄, -, hrest⟩ := run_bind_ok.mp hrest
  obtain ⟨rfl, -⟩ := Prod.mk.inj (Except.ok.inj hrest)
  have hids : ∀ e ∈ entriesFrom (logOf (blocks t₁)).events first,
      (logOf (blocks t₁)).events[e.2]? = some e.1 ∧ e.2 + 1 < 2 ^ 64 := by
    intro e he
    have hget := (mem_entriesFrom.mp he).1
    have hlt := (List.getElem?_eq_some_iff.mp hget).1
    exact ⟨hget, by omega⟩
  obtain ⟨hscanned, hmore⟩ := eventLoop_ok h (Nat.le_succ t₁) hids (Nat.zero_le _) hloop
  rw [upToHeight_anchored h ha hle, Nat.sub_zero] at hscanned hmore
  have hlast := last_taken (logOf (blocks t₀)).events first request.count
  have hleft : (entriesFrom (logOf (blocks t₀)).events first).length =
      anchoredEvents blocks t₀ - first := by
    rw [entriesFrom, List.length_zipIdx, List.length_drop, anchoredEvents]
  rw [hleft] at hmore
  have hevents : scan.events.map WalletEventResponse.event =
      rowsOf (logOf (blocks t₀)) first request.count := by
    apply hscanned.events.trans
    rw [List.map_nil, List.nil_append, rowsOf]
    refine List.filterMap_congr fun e he => walletRow_later h hle ?_
    exact (mem_entriesFrom.mp (List.mem_of_mem_take he)).1
  have hthrough := hscanned.through
  have hcursor := hscanned.position
  rw [← hfirst]
  cases htaken : ((entriesFrom (logOf (blocks t₀)).events first).take request.count).getLast? with
  | none =>
      rw [htaken] at hlast hthrough hcursor
      have hempty : ¬ first < anchoredEvents blocks t₀ := by
        intro hlt
        have hpos : min request.count ((logOf (blocks t₀)).events.length - first) ≠ 0 := by
          rw [anchoredEvents] at hlt
          omega
        rw [if_neg hpos] at hlast
        cases hlast
      refine ⟨hevents, ?_, ?_, rfl⟩
      · rw [if_neg hempty]
        exact hthrough
      · rw [if_neg (by omega), hmore, decide_eq_false (by omega)]
        rfl
  | some last =>
      rw [htaken] at hlast hthrough hcursor
      have hpos : min request.count ((logOf (blocks t₀)).events.length - first) ≠ 0 := by
        intro hzero
        rw [if_pos hzero] at hlast
        cases hlast
      rw [if_neg hpos] at hlast
      have hid : last.2 = first + min request.count ((logOf (blocks t₀)).events.length - first) - 1 :=
        Option.some.inj hlast
      have hsome : first < anchoredEvents blocks t₀ := by
        rw [anchoredEvents]
        omega
      refine ⟨hevents, ?_, ?_, rfl⟩
      · rw [if_pos hsome]
        apply hthrough.trans
        show last.2 + 1 = _
        rw [hid]
        rw [anchoredEvents] at hsome ⊢
        omega
      · rw [hmore, hcursor]
        by_cases hrest : first + request.count < anchoredEvents blocks t₀
        · have hfull : last.2 = first + request.count - 1 := by
            rw [hid]
            rw [anchoredEvents] at hrest
            omega
          rw [if_pos hrest, decide_eq_true (by omega), ← hfull]
          rfl
        · rw [if_neg hrest, decide_eq_false (by omega)]
          rfl

end Page

section Feed

structure WalletCall where
  request : WalletEventsRequest
  start : Nat
  finish : Nat
  answer : ApiResponse WalletEventsResult

def WalletCall.rows (call : WalletCall) : List EventResponse :=
  call.answer.results.events.map WalletEventResponse.event

def WalletCall.through (call : WalletCall) : Nat := call.answer.results.scannedThrough

def received (calls : List WalletCall) : List EventResponse := calls.flatMap WalletCall.rows

def scannedThrough (calls : List WalletCall) : Nat := (calls.getLast?.map WalletCall.through).getD 0

def finished (calls : List WalletCall) : Nat := (calls.getLast?.map WalletCall.finish).getD 0

/-- What the next call asks for: the cursor of the answer before it, or a new
walk from where that answer ended. -/
def following (calls : List WalletCall) : Nat × Option String :=
  match calls.getLast? with
  | none => (0, none)
  | some call =>
      match call.answer.nextCursor with
      | some token => (call.request.eventFrom.fromId, some token)
      | none => (call.through, none)

/-- A call that goes on where the calls before it ended. There is a tip when a
walk starts. -/
structure Follows (σ : Nat → Store) (viewingKey : String) (calls : List WalletCall)
    (request : WalletEventsRequest) (start : Nat) : Prop where
  key : request.viewingKey = viewingKey
  next : (request.eventFrom.fromId, request.cursor) = following calls
  later : finished calls ≤ start
  tip : request.cursor = none → lastIndexedHeight (σ start) ≠ none

inductive Feed (libs : WalletLibs) (codec : CursorCodec) (σ : Nat → Store) (viewingKey : String) :
    List WalletCall → Prop
  | start : Feed libs codec σ viewingKey []
  | call {calls : List WalletCall} (call : WalletCall) (h : Feed libs codec σ viewingKey calls)
      (hfollows : Follows σ viewingKey calls call.request call.start)
      (hrun : (walletEvents libs codec call.request).run σ call.start =
        .ok (call.answer, call.finish)) :
      Feed libs codec σ viewingKey (calls ++ [call])

@[simp] theorem received_push (calls : List WalletCall) (call : WalletCall) :
    received (calls ++ [call]) = received calls ++ call.rows := by
  simp [received]

@[simp] theorem scannedThrough_push (calls : List WalletCall) (call : WalletCall) :
    scannedThrough (calls ++ [call]) = call.through := by
  simp [scannedThrough]

@[simp] theorem finished_push (calls : List WalletCall) (call : WalletCall) :
    finished (calls ++ [call]) = call.finish := by
  simp [finished]

variable {libs : WalletLibs} {codec : CursorCodec} {σ : Nat → Store}
  {blocks : Nat → List DerivedBlock} {viewingKey : String} {calls : List WalletCall}
  {call : WalletCall}

/-- How the walk of the last call stands: it has ended at its anchor, or its
cursor points behind the last scanned event. -/
def Standing (libs : WalletLibs) (codec : CursorCodec) (blocks : Nat → List DerivedBlock)
    (call : WalletCall) : Prop :=
  ∃ key t₀ anchor, parseViewingKey libs call.request.viewingKey = .ok key ∧ t₀ ≤ call.finish ∧
    Anchored (blocks t₀) anchor ∧ call.answer.tip = some (TipResponse.from anchor) ∧
    ((call.answer.nextCursor = none ∧ call.through = anchoredEvents blocks t₀) ∨
      (0 < call.through ∧ call.through < anchoredEvents blocks t₀ ∧
        call.answer.nextCursor = some (codec.encode (walletScope call.request.eventFrom key) anchor
          (be 8 (call.through - 1)))))

/-- What the client has after some calls. -/
structure Reached (libs : WalletLibs) (codec : CursorCodec) (blocks : Nat → List DerivedBlock)
    (calls : List WalletCall) : Prop where
  bound : scannedThrough calls ≤ anchoredEvents blocks (finished calls)
  rows : received calls = rowsOf (logOf (blocks (finished calls))) 0 (scannedThrough calls)
  standing : ∀ call, calls.getLast? = some call → Standing libs codec blocks call

theorem anchoredEvents_lt (h : Growing σ blocks) (t : Nat) : anchoredEvents blocks t < 2 ^ 64 := by
  obtain ⟨ids, hrun⟩ := h.run t
  have hevents : ids.nextEventId < 2 ^ 64 := hrun.room.events
  rw [hrun.holds.counters] at hevents
  exact hevents

theorem anchoredEvents_le (h : Growing σ blocks) {t t' : Nat} (hle : t ≤ t') :
    anchoredEvents blocks t ≤ anchoredEvents blocks t' := by
  obtain ⟨new, hnew, -⟩ := (h.grown hle).events
  rw [anchoredEvents, anchoredEvents, hnew, List.length_append]
  exact Nat.le_add_right _ _

theorem rowsOf_same (h : Growing σ blocks) {t t' n : Nat} (hn : n ≤ anchoredEvents blocks t)
    (hn' : n ≤ anchoredEvents blocks t') :
    rowsOf (logOf (blocks t')) 0 n = rowsOf (logOf (blocks t)) 0 n := by
  rcases Nat.le_total t t' with hle | hle
  · exact rowsOf_later h hle hn
  · exact (rowsOf_later h hle hn').symm

theorem rowsOf_min (log : ChainLog) (n : Nat) :
    rowsOf log 0 n = rowsOf log 0 (min n log.events.length) := by
  have hlen : (entriesFrom log.events 0).length = log.events.length := by
    rw [entriesFrom, List.length_zipIdx, List.drop_zero]
  rcases Nat.le_total n log.events.length with hle | hle
  · rw [Nat.min_eq_left hle]
  · rw [Nat.min_eq_right hle, rowsOf, rowsOf, List.take_of_length_le (by omega),
      List.take_of_length_le (by omega)]

theorem pageContext_count {pagination : Pagination} {queryScope : Bytes} {t t' : Nat}
    {page : PageContext}
    (hrun : (pageContext codec pagination queryScope).run σ t = .ok (page, t')) :
    1 ≤ pagination.count ∧ pagination.count ≤ 5000 := by
  rw [pageContext] at hrun
  obtain ⟨_, _, hvalid, _⟩ := run_bind_ok.mp hrun
  have hok := (run_liftExcept.mp hvalid).1
  by_contra hnot
  rw [Pagination.validate, if_pos hnot] at hok
  cases hok

theorem Follows.context (hl : codec.Lawful) (h : Growing σ blocks)
    (hr : Reached libs codec blocks calls) {request : WalletEventsRequest} {start : Nat}
    (hfollows : Follows σ viewingKey calls request start)
    (hkeys : ∀ last, calls.getLast? = some last → last.request.viewingKey = viewingKey)
    {key : ByteArr 32} (hkey : parseViewingKey libs request.viewingKey = .ok key)
    (hcount : 1 ≤ request.count ∧ request.count ≤ 5000) :
    ∃ t₀ t₁ anchor position, t₀ ≤ start ∧ start ≤ t₁ ∧ Anchored (blocks t₀) anchor ∧
      scannedThrough calls ≤ anchoredEvents blocks t₀ ∧
      (scannedThrough calls = anchoredEvents blocks t₀ →
        request.eventFrom.fromId = scannedThrough calls) ∧
      (∀ p, position = some p → p < 2 ^ 64) ∧
      position.elim request.eventFrom.fromId (· + 1) = scannedThrough calls ∧
      (pageContext codec ⟨request.count, .asc, request.cursor, none⟩
        (walletScope request.eventFrom key)).run σ start =
          .ok (⟨some anchor, position.map (be 8)⟩, t₁) := by
  have hbound := hr.bound.trans (anchoredEvents_le h hfollows.later)
  have hnew : request.cursor = none → request.eventFrom.fromId = scannedThrough calls →
      ∃ anchor, Anchored (blocks start) anchor ∧
        (pageContext codec ⟨request.count, .asc, request.cursor, none⟩
          (walletScope request.eventFrom key)).run σ start =
            .ok (⟨some anchor, none⟩, start + 2) := by
    intro hcursor hfrom
    have hne : blocks start ≠ [] := by
      intro hnil
      apply hfollows.tip hcursor
      rw [h.lastHeight, if_pos hnil]
    obtain ⟨anchor, ha, htip⟩ := anchored_of_tip h hne
    rw [hcursor]
    exact ⟨anchor, ha, pageContext_first codec .asc _ htip hcount⟩
  have hnext := hfollows.next
  rw [following] at hnext
  cases hlast : calls.getLast? with
  | none =>
      rw [hlast] at hnext
      obtain ⟨hfrom, hcursor⟩ := Prod.mk.inj hnext
      have hzero : request.eventFrom.fromId = scannedThrough calls := by
        rw [hfrom, scannedThrough, hlast]
        rfl
      obtain ⟨anchor, ha, hcontext⟩ := hnew hcursor hzero
      exact ⟨start, start + 2, anchor, none, Nat.le_refl _, Nat.le_add_right _ _, ha, hbound,
        fun _ => hzero, fun p hp => (nomatch hp), hzero, hcontext⟩
  | some last =>
      have hthrough : scannedThrough calls = last.through := by
        rw [scannedThrough, hlast]
        rfl
      have hfinish : finished calls = last.finish := by
        rw [finished, hlast]
        rfl
      obtain ⟨key', t₀, anchor, hkey', hle, ha, -, hstanding⟩ := hr.standing last hlast
      rw [hlast] at hnext
      dsimp only at hnext
      rcases hstanding with ⟨hnone, -⟩ | ⟨hpos, hlt, htoken⟩
      · rw [hnone] at hnext
        obtain ⟨hfrom, hcursor⟩ := Prod.mk.inj hnext
        rw [← hthrough] at hfrom
        obtain ⟨anchor, ha, hcontext⟩ := hnew hcursor hfrom
        exact ⟨start, start + 2, anchor, none, Nat.le_refl _, Nat.le_add_right _ _, ha, hbound,
          fun _ => hfrom, fun p hp => (nomatch hp), hfrom, hcontext⟩
      · rw [htoken] at hnext
        obtain ⟨hfrom, hcursor⟩ := Prod.mk.inj hnext
        have hscope : walletScope last.request.eventFrom key' = walletScope request.eventFrom key := by
          rw [hkeys last hlast, ← hfollows.key, hkey] at hkey'
          rw [walletScope, walletScope, hfrom, Except.ok.inj hkey']
        have hle' : t₀ ≤ start := hle.trans (hfinish ▸ hfollows.later)
        have hlen := anchoredEvents_lt h t₀
        rw [← hthrough] at hpos hlt
        refine ⟨t₀, start + 1, anchor, some (scannedThrough calls - 1), hle', Nat.le_succ _, ha,
          hlt.le, fun he => absurd he hlt.ne, ?_, Nat.sub_add_cancel hpos, ?_⟩
        · intro p hp
          obtain rfl := Option.some.inj hp
          omega
        · rw [hcursor, hscope, ← hthrough]
          exact pageContext_next .asc _ hl h ha hle' hcount (by rw [be_length]; decide)

theorem Follows.page (hl : codec.Lawful) (h : Growing σ blocks) (hr : Reached libs codec blocks calls)
    (hfollows : Follows σ viewingKey calls call.request call.start)
    (hkeys : ∀ last, calls.getLast? = some last → last.request.viewingKey = viewingKey)
    (hrun : (walletEvents libs codec call.request).run σ call.start = .ok (call.answer, call.finish)) :
    ∃ key t₀ anchor, parseViewingKey libs call.request.viewingKey = .ok key ∧ t₀ ≤ call.start ∧
      Anchored (blocks t₀) anchor ∧ 1 ≤ call.request.count ∧
      scannedThrough calls ≤ anchoredEvents blocks t₀ ∧
      (scannedThrough calls = anchoredEvents blocks t₀ →
        call.request.eventFrom.fromId = scannedThrough calls) ∧
      PageOf codec blocks key t₀ anchor call.request (scannedThrough calls) call.answer := by
  obtain ⟨key, t₁, hparse, hrest⟩ := run_bind_ok.mp hrun
  obtain ⟨hkey, rfl⟩ := run_liftExcept.mp hparse
  obtain ⟨page, t₂, hcontext, hpage⟩ := run_bind_ok.mp hrest
  have hcount := pageContext_count hcontext
  obtain ⟨t₀, t₁, anchor, position, hle, hle₁, ha, hbound, hend, hposition, hfirst, hcontext'⟩ :=
    hfollows.context hl h hr hkeys hkey hcount
  obtain ⟨rfl, rfl⟩ := Prod.mk.inj (Except.ok.inj (hcontext.symm.trans hcontext'))
  have hpageOf := walletPage_ok h ha (hle.trans hle₁) hcount.1 position hposition hpage
  rw [hfirst] at hpageOf
  exact ⟨key, t₀, anchor, hkey, hle, ha, hcount.1, hbound, hend, hpageOf⟩

theorem Reached.step (hl : codec.Lawful) (h : Growing σ blocks) (hr : Reached libs codec blocks calls)
    (hfollows : Follows σ viewingKey calls call.request call.start)
    (hkeys : ∀ last, calls.getLast? = some last → last.request.viewingKey = viewingKey)
    (hrun : (walletEvents libs codec call.request).run σ call.start = .ok (call.answer, call.finish)) :
    Reached libs codec blocks (calls ++ [call]) ∧ scannedThrough calls ≤ call.through ∧
      call.through ≤ scannedThrough calls + call.request.count ∧
      (call.answer.nextCursor ≠ none → 1 ≤ call.request.count ∧
        call.through = scannedThrough calls + call.request.count) := by
  obtain ⟨key, t₀, anchor, hkey, hle, ha, hcount, hbound, hfrom, hpage⟩ :=
    hfollows.page hl h hr hkeys hrun
  have hfinish : t₀ ≤ call.finish := hle.trans (run_le hrun)
  have hthrough : call.through =
      min (scannedThrough calls + call.request.count) (anchoredEvents blocks t₀) := by
    apply hpage.through.trans
    split
    · rfl
    · rename_i hnot
      have hend : scannedThrough calls = anchoredEvents blocks t₀ := by omega
      rw [hfrom hend]
      omega
  have hgrown := anchoredEvents_le h hfinish
  refine ⟨⟨?_, ?_, ?_⟩, by omega, by omega, fun hsome => ⟨hcount, ?_⟩⟩
  · rw [scannedThrough_push, finished_push]
    omega
  · rw [received_push, scannedThrough_push, finished_push, hr.rows]
    have hnew : call.rows = rowsOf (logOf (blocks t₀)) (scannedThrough calls) call.request.count :=
      hpage.events
    rw [hnew, ← rowsOf_same h hr.bound hbound, rowsOf_append, rowsOf_min]
    have hmin : min (scannedThrough calls + call.request.count) (logOf (blocks t₀)).events.length =
        call.through := hthrough.symm
    rw [hmin]
    exact rowsOf_same h (by omega) (by omega)
  · intro last hlast
    rw [List.getLast?_concat] at hlast
    obtain rfl := Option.some.inj hlast
    refine ⟨key, t₀, anchor, hkey, hfinish, ha, hpage.tip, ?_⟩
    by_cases hmore : scannedThrough calls + call.request.count < anchoredEvents blocks t₀
    · have hfull : call.through = scannedThrough calls + call.request.count := by omega
      refine .inr ⟨by omega, by omega, ?_⟩
      rw [hpage.next, if_pos hmore, hfull]
    · refine .inl ⟨?_, by omega⟩
      rw [hpage.next, if_neg hmore]
  · by_cases hmore : scannedThrough calls + call.request.count < anchoredEvents blocks t₀
    · omega
    · rw [hpage.next, if_neg hmore] at hsome
      exact absurd rfl hsome

theorem Feed.keys (hf : Feed libs codec σ viewingKey calls) :
    ∀ call ∈ calls, call.request.viewingKey = viewingKey := by
  induction hf with
  | start => exact fun call hc => absurd hc List.not_mem_nil
  | call call _ hfollows _ ih =>
      intro c hc
      rcases List.mem_append.mp hc with hc | hc
      · exact ih c hc
      · rw [List.mem_singleton.mp hc]
        exact hfollows.key

theorem Feed.lastKey (hf : Feed libs codec σ viewingKey calls) {last : WalletCall}
    (hlast : calls.getLast? = some last) : last.request.viewingKey = viewingKey :=
  hf.keys last (List.mem_of_getLast? hlast)

theorem Feed.reached (hl : codec.Lawful) (h : Growing σ blocks)
    (hf : Feed libs codec σ viewingKey calls) : Reached libs codec blocks calls := by
  induction hf with
  | start =>
      refine ⟨Nat.zero_le _, ?_, fun call hlast => by cases hlast⟩
      rw [show scannedThrough [] = 0 from rfl, rowsOf, List.take_zero]
      rfl
  | call call hf hfollows hrun ih =>
      exact (ih.step hl h hfollows (fun _ => hf.lastKey) hrun).1

/-- The client has the wallet events below the point it has reached, once and in
order, whatever the indexer has written since. A walk that has ended has reached
the end of the blocks at or below its anchor. -/
structure ExactlyOnce (σ : Nat → Store) (calls : List WalletCall) : Prop where
  ascending : (received calls).Pairwise (fun a b => a.id < b.id)
  sound : ∀ t, finished calls ≤ t → ∀ row ∈ received calls, row.id < scannedThrough calls ∧
    ∃ record block, (σ t .ledgerEvents)[be 8 row.id]? = some record ∧
      record.event.grouping ≠ .contract ∧ Schema.block (σ t) record.blockHeight = some block ∧
      row = EventResponse.of row.id record block
  complete : ∀ t, finished calls ≤ t → ∀ id record, id < scannedThrough calls →
    (σ t .ledgerEvents)[be 8 id]? = some record → record.event.grouping ≠ .contract →
    ∃ row ∈ received calls, row.id = id
  walked : ∀ call, calls.getLast? = some call → call.answer.nextCursor = none →
    ∃ tip, call.answer.tip = some tip ∧ ∀ t, call.finish ≤ t → ∀ id record, id < 2 ^ 64 →
      (σ t .ledgerEvents)[be 8 id]? = some record → (record.blockHeight ≤ tip.height ↔ id < call.through)
  examined : ∀ front call rest, calls = front ++ call :: rest →
    scannedThrough front ≤ call.through ∧
      call.through ≤ scannedThrough front + call.request.count ∧
      (call.answer.nextCursor ≠ none → 1 ≤ call.request.count ∧
        call.through = scannedThrough front + call.request.count)
  monotone : (calls.map WalletCall.through).Pairwise (· ≤ ·)

theorem walletRow_block {log : ChainLog} {entry : EventRecord × Nat} {row : EventResponse}
    (hrow : walletRow log entry = some row) : entry.1.event.grouping ≠ .contract ∧
      ∃ block, log.blocks[entry.1.blockHeight]? = some block ∧ row = .of entry.2 entry.1 block := by
  rw [walletRow] at hrow
  split at hrow
  · cases hrow
  · rename_i hgrouping
    obtain ⟨block, hblock, rfl⟩ := Option.map_eq_some_iff.mp hrow
    exact ⟨hgrouping, block, hblock, rfl⟩

theorem event_stored (h : Growing σ blocks) {t id : Nat} {record : EventRecord} (hid : id < 2 ^ 64) :
    (σ t .ledgerEvents)[be 8 id]? = some record ↔ (logOf (blocks t)).events[id]? = some record := by
  obtain ⟨ids, hrun⟩ := h.run t
  rw [hrun.holds.tables.events.records.get id hid]

theorem Standing.walked (h : Growing σ blocks) (hs : Standing libs codec blocks call)
    (hnone : call.answer.nextCursor = none) :
    ∃ tip, call.answer.tip = some tip ∧ ∀ t, call.finish ≤ t → ∀ id record, id < 2 ^ 64 →
      (σ t .ledgerEvents)[be 8 id]? = some record →
        (record.blockHeight ≤ tip.height ↔ id < call.through) := by
  obtain ⟨key, t₀, anchor, -, hle, ha, htip, hstanding⟩ := hs
  have hend : call.through = anchoredEvents blocks t₀ := by
    rcases hstanding with ⟨-, hend⟩ | ⟨-, -, htoken⟩
    · exact hend
    · rw [hnone] at htoken
      cases htoken
  refine ⟨_, htip, fun t ht id record hid hget => ?_⟩
  rw [event_stored h hid] at hget
  have hentry : (record, id) ∈ entriesFrom (logOf (blocks t)).events 0 :=
    mem_entriesFrom.mpr ⟨hget, Nat.zero_le _⟩
  have hshown := upToHeight_anchored h ha (hle.trans ht) 0
  rw [hend]
  constructor
  · intro hheight
    have hmem : (record, id) ∈ upToHeight anchor.height (entriesFrom (logOf (blocks t)).events 0) :=
      List.mem_filter.mpr ⟨hentry, decide_eq_true hheight⟩
    rw [hshown] at hmem
    exact (List.getElem?_eq_some_iff.mp (mem_entriesFrom.mp hmem).1).1
  · intro hlt
    have hold : (record, id) ∈ entriesFrom (logOf (blocks t₀)).events 0 := by
      refine mem_entriesFrom.mpr ⟨?_, Nat.zero_le _⟩
      obtain ⟨new, hnew, -⟩ := (h.grown (hle.trans ht)).events
      rw [hnew, List.getElem?_append_left hlt] at hget
      exact hget
    rw [← hshown] at hold
    exact of_decide_eq_true (List.mem_filter.mp hold).2

theorem Reached.sound (h : Growing σ blocks) (hr : Reached libs codec blocks calls) {t : Nat}
    (ht : finished calls ≤ t) {row : EventResponse} (hrow : row ∈ received calls) :
    row.id < scannedThrough calls ∧
      ∃ record block, (σ t .ledgerEvents)[be 8 row.id]? = some record ∧
        record.event.grouping ≠ .contract ∧ Schema.block (σ t) record.blockHeight = some block ∧
        row = EventResponse.of row.id record block := by
  rw [hr.rows, ← rowsOf_same h hr.bound (hr.bound.trans (anchoredEvents_le h ht))] at hrow
  obtain ⟨id, record, hlt, hget, hwallet⟩ := mem_rowsOf.mp hrow
  obtain ⟨hgrouping, block, hblock, rfl⟩ := walletRow_block hwallet
  have hid : id < 2 ^ 64 :=
    ((List.getElem?_eq_some_iff.mp hget).1).trans (anchoredEvents_lt h t)
  obtain ⟨block', hblock', hstored⟩ := h.block (Nat.le_refl t) (h.event_height hget)
  obtain rfl := Option.some.inj (hblock.symm.trans hblock')
  exact ⟨hlt, record, block, (event_stored h hid).mpr hget, hgrouping, hstored, rfl⟩

theorem Reached.complete (h : Growing σ blocks) (hr : Reached libs codec blocks calls) {t : Nat}
    (ht : finished calls ≤ t) {id : Nat} {record : EventRecord} (hlt : id < scannedThrough calls)
    (hget : (σ t .ledgerEvents)[be 8 id]? = some record)
    (hgrouping : record.event.grouping ≠ .contract) : ∃ row ∈ received calls, row.id = id := by
  have hbound := hr.bound.trans (anchoredEvents_le h ht)
  have hid : id < 2 ^ 64 := by
    have := anchoredEvents_lt h t
    omega
  rw [event_stored h hid] at hget
  obtain ⟨block, hblock, -⟩ := h.block (Nat.le_refl t) (h.event_height hget)
  refine ⟨.of id record block, ?_, rfl⟩
  rw [hr.rows, ← rowsOf_same h hr.bound hbound, mem_rowsOf]
  refine ⟨id, record, hlt, hget, ?_⟩
  rw [walletRow, if_neg hgrouping, hblock]
  rfl

theorem Feed.examined (hl : codec.Lawful) (h : Growing σ blocks)
    (hf : Feed libs codec σ viewingKey calls) (front : List WalletCall) (call : WalletCall)
    (rest : List WalletCall) (he : calls = front ++ call :: rest) :
    scannedThrough front ≤ call.through ∧
      call.through ≤ scannedThrough front + call.request.count ∧
      (call.answer.nextCursor ≠ none → 1 ≤ call.request.count ∧
        call.through = scannedThrough front + call.request.count) := by
  induction hf generalizing rest with
  | start => simp at he
  | call last hf hfollows hrun ih =>
      rcases List.eq_nil_or_concat rest with rfl | ⟨rest, last', rfl⟩
      · obtain ⟨rfl, hcall⟩ := List.append_inj' he rfl
        obtain rfl := List.singleton_inj.mp hcall
        exact ((hf.reached hl h).step hl h hfollows (fun _ => hf.lastKey) hrun).2
      · rw [List.concat_eq_append, ← List.cons_append, ← List.append_assoc] at he
        exact ih rest (List.append_inj' he rfl).1

theorem Feed.monotone (hl : codec.Lawful) (h : Growing σ blocks)
    (hf : Feed libs codec σ viewingKey calls) :
    (calls.map WalletCall.through).Pairwise (· ≤ ·) ∧
      ∀ call ∈ calls, call.through ≤ scannedThrough calls := by
  induction hf with
  | start => exact ⟨List.Pairwise.nil, fun call hc => absurd hc List.not_mem_nil⟩
  | call last hf hfollows hrun ih =>
      have hstep := ((hf.reached hl h).step hl h hfollows (fun _ => hf.lastKey) hrun).2.1
      rw [scannedThrough_push]
      constructor
      · rw [List.map_append, List.map_singleton, List.pairwise_append]
        refine ⟨ih.1, List.pairwise_singleton _ _, fun a ha b hb => ?_⟩
        obtain ⟨call, hc, rfl⟩ := List.mem_map.mp ha
        rw [List.mem_singleton.mp hb]
        exact (ih.2 call hc).trans hstep
      · intro call hc
        rcases List.mem_append.mp hc with hc | hc
        · exact (ih.2 call hc).trans hstep
        · rw [List.mem_singleton.mp hc]

theorem Feed.exactlyOnce (hl : codec.Lawful) (h : Growing σ blocks)
    (hf : Feed libs codec σ viewingKey calls) : ExactlyOnce σ calls := by
  have hr := hf.reached hl h
  refine ⟨?_, fun t ht row => hr.sound h ht, fun t ht id record => hr.complete h ht, ?_,
    hf.examined hl h, (hf.monotone hl h).1⟩
  · rw [hr.rows]
    exact rowsOf_sorted _ _ _
  · exact fun call hlast hnone => (hr.standing call hlast).walked h hnone

end Feed

section Answers

variable {libs : WalletLibs} {codec : CursorCodec} {σ : Nat → Store}
  {blocks : Nat → List DerivedBlock} {viewingKey : String} {calls : List WalletCall}

def Decodes (libs : WalletLibs) (blocks : List DerivedBlock) : Prop :=
  ∀ tx ∈ (logOf blocks).txs, tx.variant = .regular → ∀ block,
    (logOf blocks).blocks[tx.blockHeight]? = some block →
    ∃ version transaction, ProtocolVersion.tryFrom block.protocolVersion = .ok version ∧
      libs.deserializeTransaction tx.raw version.ledgerVersion = .ok transaction

abbrev Succeeds {α : Type} (x : Handler α) (σ : Nat → Store) (t : Nat) : Prop :=
  FailsIn (fun _ => False) x σ t

theorem succeeds_ok {α : Type} {x : Handler α} {t : Nat} (hx : Succeeds x σ t) :
    ∃ a t', x.run σ t = .ok (a, t') := by
  cases hrun : x.run σ t with
  | ok r => exact ⟨r.1, r.2, rfl⟩
  | error e => exact absurd (hx e hrun) id

theorem transactionRelevance_succeeds (h : Growing σ blocks) (hdecodes : ∀ t, Decodes libs (blocks t))
    {key : ByteArr 32} {t₀ t txId : Nat} {tx : TxRecord} (hle : t₀ ≤ t)
    (hget : (logOf (blocks t₀)).txs[txId]? = some tx) :
    Succeeds (transactionRelevance libs key tx) σ t := by
  rw [transactionRelevance]
  split
  · rename_i hregular
    obtain ⟨new, hnew, hheights⟩ := (h.consecutive t₀).heights.txs
    have hheight : tx.blockHeight < (blocks t₀).length := by
      rw [hnew] at hget
      exact hheights tx (List.mem_of_getElem? (by simpa [ChainLog.empty] using hget))
    obtain ⟨block, hblock, hstored⟩ := h.block hle hheight
    obtain ⟨version, transaction, hversion, htransaction⟩ :=
      hdecodes t₀ tx (List.mem_of_getElem? hget) hregular block hblock
    apply failsIn_query
    rw [hstored]
    refine failsIn_bind (failsIn_liftExcept fun e he => ?_) (fun version' t₁ _ hok => ?_)
    · rw [hversion] at he
      cases he
    · rw [hversion] at hok
      obtain rfl := Except.ok.inj (run_liftExcept.mp hok).1
      refine failsIn_bind (failsIn_liftExcept fun e he => ?_) (fun _ _ _ _ => failsIn_pure _)
      rw [htransaction] at he
      cases he
  · exact failsIn_pure _

theorem scanEvent_succeeds (h : Growing σ blocks) (hdecodes : ∀ t, Decodes libs (blocks t))
    {key : ByteArr 32} {t₀ t : Nat} {entry : EventRecord × Nat} (hle : t₀ ≤ t)
    (hget : (logOf (blocks t₀)).events[entry.2]? = some entry.1) (scan : WalletScan) :
    Succeeds (scanEvent libs key entry.2 entry.1 scan) σ t := by
  have hevent : ∀ t, t₀ ≤ t → Succeeds (EventResponse.new entry.2 entry.1) σ t := by
    intro t hle
    obtain ⟨block, -, hrun⟩ := h.eventResponse hle hget
    exact failsIn_of_ok hrun
  rw [scanEvent]
  dsimp only
  split
  · exact failsIn_pure _
  · exact failsIn_bind (hevent t hle) (fun _ _ _ _ => failsIn_pure _)
  · refine failsIn_bind ?_ (fun _ t₁ hle₁ _ =>
      failsIn_bind (hevent t₁ (hle.trans hle₁)) (fun _ _ _ _ => failsIn_pure _))
    rw [relevance]
    split
    · exact failsIn_pure _
    · have hlt := (logOf_owned (blocks t₀)).events entry.1 (List.mem_of_getElem? hget)
      have htx := List.getElem?_eq_getElem hlt
      apply failsIn_query
      rw [h.tx hle htx]
      exact failsIn_bind (transactionRelevance_succeeds h hdecodes (hle.trans (Nat.le_succ t)) htx)
        (fun _ _ _ _ => failsIn_pure _)

theorem eventLoop_succeeds (h : Growing σ blocks) (hdecodes : ∀ t, Decodes libs (blocks t))
    {key : ByteArr 32} {anchor : Option TipAnchor} {count t₀ t : Nat} (hle : t₀ ≤ t)
    {entries : List (EventRecord × Nat)}
    (hentries : ∀ e ∈ entries, (logOf (blocks t₀)).events[e.2]? = some e.1 ∧ e.2 < 2 ^ 64)
    (scan : WalletScan) :
    Succeeds (eventLoop libs key anchor count (entries.map rowOf) scan) σ t := by
  induction entries generalizing t scan with
  | nil => exact failsIn_pure _
  | cons entry entries ih =>
      obtain ⟨hget, hid⟩ := hentries entry List.mem_cons_self
      have hrest : ∀ e ∈ entries, (logOf (blocks t₀)).events[e.2]? = some e.1 ∧ e.2 < 2 ^ 64 :=
        fun e he => hentries e (List.mem_cons_of_mem _ he)
      rw [List.map_cons, eventLoop]
      split
      · exact ih hle hrest scan
      · split
        · exact failsIn_pure _
        · rw [show fromBe (rowOf entry).1 = entry.2 from fromBe_be (show entry.2 < 256 ^ 8 by omega)]
          exact failsIn_bind (scanEvent_succeeds h hdecodes hle hget scan)
            (fun _ t₁ hle₁ _ => ih (hle.trans hle₁) hrest _)

theorem walletPage_succeeds (h : Growing σ blocks) (hdecodes : ∀ t, Decodes libs (blocks t))
    {key : ByteArr 32} {request : WalletEventsRequest} (anchor : Option TipAnchor)
    {position : Option Nat} (hposition : ∀ p, position = some p → p < 2 ^ 64) (t : Nat) :
    Succeeds (walletPage libs codec request key ⟨anchor, position.map (be 8)⟩) σ t := by
  refine failsIn_bind (failsIn_liftExcept fun e he => ?_) (fun found t₁ _ hok => ?_)
  · rw [walletPosition_ok position hposition] at he
    cases he
  · rw [walletPosition_ok position hposition] at hok
    obtain rfl := Except.ok.inj (run_liftExcept.mp hok).1
    obtain ⟨ids, hstore⟩ := h.run t₁
    have hlen := anchoredEvents_lt h t₁
    apply failsIn_query
    rw [eventRows hstore.holds.tables.events.records
      (fun id => walletLower_above request.eventFrom hposition)]
    refine failsIn_bind (eventLoop_succeeds h hdecodes (Nat.le_succ t₁) (fun e he => ?_) _)
      (fun _ _ _ _ => failsIn_query (failsIn_pure _))
    have hget := (mem_entriesFrom.mp he).1
    have hlt : e.2 < anchoredEvents blocks t₁ := (List.getElem?_eq_some_iff.mp hget).1
    exact ⟨hget, hlt.trans hlen⟩

theorem feed_answered (hl : codec.Lawful) (h : Growing σ blocks)
    (hdecodes : ∀ t, Decodes libs (blocks t)) (hf : Feed libs codec σ viewingKey calls)
    {key : ByteArr 32} (hkey : parseViewingKey libs viewingKey = .ok key)
    {request : WalletEventsRequest} {start : Nat}
    (hfollows : Follows σ viewingKey calls request start)
    (hcount : 1 ≤ request.count ∧ request.count ≤ 5000) :
    ∃ answer finish, (walletEvents libs codec request).run σ start = .ok (answer, finish) := by
  have hparse : parseViewingKey libs request.viewingKey = .ok key := by
    rw [hfollows.key]
    exact hkey
  obtain ⟨t₀, t₁, anchor, position, -, -, -, -, -, hposition, -, hcontext⟩ :=
    hfollows.context hl h (hf.reached hl h) (fun _ => hf.lastKey) hparse hcount
  apply succeeds_ok
  refine failsIn_bind (failsIn_liftExcept fun e he => ?_) (fun parsed t _ hok => ?_)
  · rw [hparse] at he
    cases he
  · obtain ⟨hparsed, rfl⟩ := run_liftExcept.mp hok
    obtain rfl := Except.ok.inj (hparse.symm.trans hparsed)
    refine failsIn_bind (failsIn_of_ok hcontext) (fun page t₂ _ hpage => ?_)
    obtain ⟨rfl, rfl⟩ := Prod.mk.inj (Except.ok.inj (hpage.symm.trans hcontext))
    exact walletPage_succeeds h hdecodes (some anchor) hposition t₂

/-- The feed of a wallet: what a client has received is exact, and every request
that goes on is answered when the libraries decode the chain. -/
theorem wallet_feed_exactly_once (hl : codec.Lawful) (h : Growing σ blocks) (viewingKey : String) :
    (∀ calls, Feed libs codec σ viewingKey calls → ExactlyOnce σ calls) ∧
    ((∀ t, Decodes libs (blocks t)) → ∀ key, parseViewingKey libs viewingKey = .ok key →
      ∀ calls, Feed libs codec σ viewingKey calls → ∀ request start,
        Follows σ viewingKey calls request start → 1 ≤ request.count ∧ request.count ≤ 5000 →
        ∃ answer finish,
          (walletEvents libs codec request).run σ start = .ok (answer, finish)) := by
  constructor
  · intro calls hf
    exact hf.exactlyOnce hl h
  · intro hdecodes key hkey calls hf request start hfollows hcount
    exact feed_answered hl h hdecodes hf hkey hfollows hcount

end Answers

section Samples

open SyncDelivery

def feedScopeHash : ByteArr 32 :=
  ⟨[0xb1, 0x32, 0xa4, 0x69, 0xaa, 0x8b, 0x1b, 0x46, 0x1d, 0xc8, 0xc9, 0x55, 0x80, 0x03, 0x4c, 0x4d,
    0xf4, 0xef, 0x1f, 0x55, 0x80, 0x47, 0xa1, 0xb5, 0x3b, 0x27, 0xfa, 0x11, 0x74, 0xc3, 0x5f, 0x4a],
    rfl⟩

def feedMac : ByteArr 32 :=
  ⟨[0xc8, 0x68, 0xe8, 0x36, 0x2b, 0x71, 0x53, 0x4f, 0x96, 0xe5, 0x96, 0xfa, 0x23, 0x3a, 0xae, 0x01,
    0x30, 0x67, 0x25, 0x71, 0xe8, 0x1d, 0xea, 0xe9, 0x73, 0x54, 0xf5, 0x06, 0x8d, 0x48, 0x2e, 0x23],
    rfl⟩

def feedCodec : CursorCodec where
  key := List.replicate 32 0
  sha256 _ := feedScopeHash
  hmacSha256 _ _ := feedMac
  base64Encode := Base64.encode
  base64Decode := Base64.decode

theorem feedCodec_lawful : feedCodec.Lawful := ⟨Base64.decode_encode, Base64.encode_size⟩

def feedRequest (cursor : Option String) : WalletEventsRequest := ⟨sampleKey, ⟨0, zero_lt_u64⟩, 1, cursor⟩

def feedAnswer (cursor : Option String) (start : Nat) : ApiResponse WalletEventsResult × Nat :=
  ((walletEvents sampleLibs feedCodec (feedRequest cursor)).run pairMoments start).toOption.getD
    (⟨⟨[], 0, 0⟩, none, none⟩, 0)

def firstCall : WalletCall :=
  ⟨feedRequest none, 0, (feedAnswer none 0).2, (feedAnswer none 0).1⟩

theorem feed_first : Feed sampleLibs feedCodec pairMoments sampleKey [firstCall] := by
  refine Feed.call firstCall Feed.start ⟨rfl, rfl, Nat.zero_le _, fun _ => ?_⟩ ?_
  · decide +kernel
  · exact ok_of_toBool (by decide +kernel) (⟨⟨[], 0, 0⟩, none, none⟩, 0)

theorem decodes_pair (t : Nat) : Decodes sampleLibs (pairBlocks t) := by
  have hversions : ∀ block ∈ (logOf (pairBlocks t)).blocks,
      ProtocolVersion.tryFrom block.protocolVersion = .ok (.v1_0 1000000) := by
    rw [pairBlocks]
    split <;> decide +kernel
  intro tx _ _ block hblock
  exact ⟨_, _, hversions block (List.mem_of_getElem? hblock), rfl⟩

/-- The first event, with the second block written meanwhile, and an answer
behind its cursor. -/
theorem wallet_feed_first : (received [firstCall]).map EventResponse.id = [0] ∧
    firstCall.answer.nextCursor ≠ none ∧ ExactlyOnce pairMoments [firstCall] ∧
    ∃ answer finish, (walletEvents sampleLibs feedCodec
      (feedRequest firstCall.answer.nextCursor)).run pairMoments firstCall.finish =
        .ok (answer, finish) := by
  obtain ⟨hexact, hanswered⟩ :=
    @wallet_feed_exactly_once sampleLibs _ _ _ feedCodec_lawful growing_pair sampleKey
  refine ⟨by decide +kernel, by decide +kernel, hexact _ feed_first, ?_⟩
  refine hanswered decodes_pair sampleViewingKey parseViewingKey_sample _ feed_first _ _
    ⟨rfl, ?_, Nat.le_refl _, ?_⟩ (by decide)
  · decide +kernel
  · decide +kernel

end Samples

end Nightfrost.WalletFeed
