import Nightfrost.Lookups
import Nightfrost.ShieldedSync

namespace Nightfrost.WalletEvents

open ByteOrder Tables Partitions Domain Schema WriteBlock Staging MovingStore Api ExceptFold EntityLog
  BlockStep BlockRun Timeline Cursors Pages Listings Endpoints ShieldedSync Lookups

structure WalletEventsRequest where
  viewingKey : String
  eventFrom : EventFrom
  count : Nat := walletEventsDefaultCount
  cursor : Option String

structure WalletEventResponse where
  event : EventResponse
  relevant : Option Bool
  deriving DecidableEq

structure WalletEventsResult where
  events : List WalletEventResponse
  scannedThrough : Nat
  highestEventId : Nat
  deriving DecidableEq

structure WalletScan where
  events : List WalletEventResponse
  scanned : Nat
  scannedThrough : Nat
  cursorPosition : Option Bytes
  hasMore : Bool
  relevantTxs : List (Nat × Bool)

variable (libs : WalletLibs)

/-- Whether the key decrypts an output of the transaction, which only a regular
one has. -/
def transactionRelevance (viewingKey : ByteArr 32) (tx : TxRecord) : Handler Bool :=
  if tx.variant = .regular then do
    match ← query (Schema.block · tx.blockHeight) with
    | none => .fail (.internal "missing block for wallet event")
    | some block =>
        let protocolVersion ← liftExcept (internal (ProtocolVersion.tryFrom block.protocolVersion))
        let transaction ←
          liftExcept (internal (libs.deserializeTransaction tx.raw protocolVersion.ledgerVersion))
        pure (relevant libs transaction viewingKey)
  else pure false

def relevance (viewingKey : ByteArr 32) (txId : Nat) (relevantTxs : List (Nat × Bool)) :
    Handler (Bool × List (Nat × Bool)) :=
  match relevantTxs.lookup txId with
  | some relevant => pure (relevant, relevantTxs)
  | none => do
      match ← query (tx · txId) with
      | none => .fail (.internal "missing transaction for wallet event")
      | some tx =>
          let relevant ← transactionRelevance libs viewingKey tx
          pure (relevant, (txId, relevant) :: relevantTxs)

/-- A scanned event that is not above the anchor: a contract event is passed over. -/
def scanEvent (viewingKey : ByteArr 32) (id : Nat) (record : EventRecord) (scan : WalletScan) :
    Handler WalletScan := do
  let scan := { scan with
    scanned := scan.scanned + 1
    scannedThrough := min (id + 1) (2 ^ 64 - 1)
    cursorPosition := some (be 8 id) }
  match record.event.grouping with
  | .contract => pure scan
  | .dust =>
      let event ← EventResponse.new id record
      pure { scan with events := scan.events ++ [⟨event, none⟩] }
  | .zswap =>
      let (relevant, relevantTxs) ← relevance libs viewingKey record.txId scan.relevantTxs
      let event ← EventResponse.new id record
      pure { scan with events := scan.events ++ [⟨event, some relevant⟩], relevantTxs }

def eventLoop (viewingKey : ByteArr 32) (anchor : Option TipAnchor) (count : Nat) :
    List (Bytes × EventRecord) → WalletScan → Handler WalletScan
  | [], scan => pure scan
  | entry :: entries, scan =>
      if aboveAnchor anchor entry.2.blockHeight then eventLoop viewingKey anchor count entries scan
      else if scan.scanned = count then pure { scan with hasMore := true }
      else do
        let scan ← scanEvent libs viewingKey (fromBe entry.1) entry.2 scan
        eventLoop viewingKey anchor count entries scan

def walletPosition : Option Bytes → Except ApiError (Option Nat)
  | none => .ok none
  | some position =>
      if position.length = 8 then .ok (some (fromBe position))
      else .error (.badRequest "invalid wallet event cursor position")

def walletLower (eventFrom : EventFrom) : Option Nat → Bound
  | some id => .excluded (be 8 id)
  | none => .included (be 8 eventFrom.fromId)

def walletScope (eventFrom : EventFrom) (viewingKey : ByteArr 32) : Bytes :=
  scope [utf8 "wallet_events", be 8 eventFrom.fromId, viewingKey.val] .asc

/-- The page of a request. It has more when an entry is left that is not above
the anchor, whether or not it is one that the page would show. -/
def walletPage (codec : CursorCodec) (request : WalletEventsRequest) (viewingKey : ByteArr 32)
    (page : PageContext) : Handler (ApiResponse WalletEventsResult) := do
  let position ← liftExcept (walletPosition page.position)
  let lower := walletLower request.eventFrom position
  let entries ← query (fun s => range (s .ledgerEvents) lower .unbounded)
  let scan ← eventLoop libs viewingKey page.anchor request.count entries
    ⟨[], 0, request.eventFrom.fromId, none, false, []⟩
  let next := nextCursor codec (walletScope request.eventFrom viewingKey) page.anchor
    scan.cursorPosition scan.hasMore
  let highestEventId ← query (nextId · nextEventIdKey)
  pure ⟨⟨scan.events, scan.scannedThrough, highestEventId⟩, page.anchor.map TipResponse.from, next⟩

def walletEvents (codec : CursorCodec) (request : WalletEventsRequest) :
    Handler (ApiResponse WalletEventsResult) := do
  let viewingKey ← liftExcept (parseViewingKey libs request.viewingKey)
  let page ← pageContext codec ⟨request.count, .asc, request.cursor, none⟩
    (walletScope request.eventFrom viewingKey)
  walletPage libs codec request viewingKey page

section Rows

def entriesFrom (events : List EventRecord) (fromId : Nat) : List (EventRecord × Nat) :=
  (events.drop fromId).zipIdx fromId

def rowOf (entry : EventRecord × Nat) : Bytes × EventRecord := (be 8 entry.2, entry.1)

theorem mem_entriesFrom {events : List EventRecord} {fromId : Nat} {e : EventRecord × Nat} :
    e ∈ entriesFrom events fromId ↔ events[e.2]? = some e.1 ∧ fromId ≤ e.2 := by
  rw [entriesFrom, List.mem_zipIdx_iff_le_and_getElem?_sub, List.getElem?_drop, and_comm]
  refine and_congr_left fun hle => ?_
  rw [Nat.add_sub_cancel' hle]

theorem entriesFrom_sorted (events : List EventRecord) (fromId : Nat) :
    (entriesFrom events fromId).Pairwise (fun a b => a.2 < b.2) := by
  rw [entriesFrom, List.pairwise_iff_getElem]
  intro i j hi hj hij
  rw [List.getElem_zipIdx, List.getElem_zipIdx]
  exact Nat.add_lt_add_left hij fromId

theorem eventRows {t : Table EventRecord} {events : List EventRecord} (h : Indexed t events)
    {lower : Bound} {fromId : Nat}
    (hlower : ∀ id, id < 2 ^ 64 → (lower.above (be 8 id) = true ↔ fromId ≤ id)) :
    range t lower .unbounded = (entriesFrom events fromId).map rowOf := by
  have hbound := h.bound
  have hlt : ∀ e ∈ entriesFrom events fromId, e.2 < 2 ^ 64 := by
    intro e he
    have hget := (List.getElem?_eq_some_iff.mp (mem_entriesFrom.mp he).1).1
    omega
  apply rows_eq_of_sorted (range_sorted _ _ _)
  · rw [List.pairwise_map]
    refine (entriesFrom_sorted events fromId).imp_of_mem ?_
    intro a b ha hb hab
    show compare (be 8 a.2) (be 8 b.2) = .lt
    rw [compare_be (hlt a ha) (hlt b hb)]
    exact Nat.compare_eq_lt.mpr hab
  · rintro ⟨k, record⟩
    rw [mem_range, List.mem_map]
    constructor
    · rintro ⟨hrow, habove, -⟩
      obtain ⟨i, hget, rfl⟩ := h.get_iff.mp hrow
      have hi := (List.getElem?_eq_some_iff.mp hget).1
      exact ⟨(record, i), mem_entriesFrom.mpr ⟨hget, (hlower i (by omega)).mp habove⟩, rfl⟩
    · rintro ⟨e, he, hrow⟩
      obtain ⟨rfl, rfl⟩ := Prod.mk.inj hrow
      obtain ⟨hget, hle⟩ := mem_entriesFrom.mp he
      exact ⟨h.get_iff.mpr ⟨e.2, hget, rfl⟩, (hlower e.2 (hlt e he)).mpr hle, rfl⟩

end Rows

section Loop

variable {libs} {σ : Nat → Store} {blocks : Nat → List DerivedBlock} {viewingKey : ByteArr 32}
  {t₀ t t' : Nat}

def walletRow (log : ChainLog) (entry : EventRecord × Nat) : Option EventResponse :=
  if entry.1.event.grouping = .contract then none
  else (log.blocks[entry.1.blockHeight]?).map (EventResponse.of entry.2 entry.1)

theorem scanEvent_ok (h : Growing σ blocks) (hle : t₀ ≤ t) {entry : EventRecord × Nat}
    (hget : (logOf (blocks t₀)).events[entry.2]? = some entry.1) (hid : entry.2 + 1 < 2 ^ 64)
    {scan scan' : WalletScan}
    (hrun : (scanEvent libs viewingKey entry.2 entry.1 scan).run σ t = .ok (scan', t')) :
    scan'.events.map WalletEventResponse.event =
        scan.events.map WalletEventResponse.event ++ (walletRow (logOf (blocks t₀)) entry).toList ∧
      scan'.scanned = scan.scanned + 1 ∧ scan'.scannedThrough = entry.2 + 1 ∧
      scan'.cursorPosition = some (be 8 entry.2) ∧ scan'.hasMore = scan.hasMore := by
  have hthrough : min (entry.2 + 1) (2 ^ 64 - 1) = entry.2 + 1 := by omega
  rw [scanEvent] at hrun
  rw [walletRow]
  cases hgrouping : entry.1.event.grouping with
  | contract =>
      rw [hgrouping] at hrun
      obtain ⟨rfl, rfl⟩ := Prod.mk.inj (Except.ok.inj hrun)
      rw [if_pos rfl]
      exact ⟨(List.append_nil _).symm, rfl, hthrough, rfl, rfl⟩
  | dust =>
      rw [hgrouping] at hrun
      obtain ⟨event, t₁, hevent, hrest⟩ := run_bind_ok.mp hrun
      obtain ⟨block, hblock, hanswer⟩ := h.eventResponse hle hget
      obtain ⟨rfl, rfl⟩ := Prod.mk.inj (Except.ok.inj (hevent.symm.trans hanswer))
      obtain ⟨rfl, rfl⟩ := Prod.mk.inj (Except.ok.inj hrest)
      rw [if_neg (by decide), hblock]
      exact ⟨List.map_append, rfl, hthrough, rfl, rfl⟩
  | zswap =>
      rw [hgrouping] at hrun
      obtain ⟨relevant, t₁, hrelevant, hrest⟩ := run_bind_ok.mp hrun
      obtain ⟨event, t₂, hevent, hrest⟩ := run_bind_ok.mp hrest
      obtain ⟨block, hblock, hanswer⟩ := h.eventResponse (hle.trans (run_le hrelevant)) hget
      obtain ⟨rfl, rfl⟩ := Prod.mk.inj (Except.ok.inj (hevent.symm.trans hanswer))
      obtain ⟨rfl, rfl⟩ := Prod.mk.inj (Except.ok.inj hrest)
      rw [if_neg (by decide), hblock]
      exact ⟨List.map_append, rfl, hthrough, rfl, rfl⟩

def upToHeight (height : Nat) (entries : List (EventRecord × Nat)) : List (EventRecord × Nat) :=
  entries.filter (fun e => e.1.blockHeight ≤ height)

structure Scanned (log : ChainLog) (taken : List (EventRecord × Nat)) (scan scan' : WalletScan) :
    Prop where
  events : scan'.events.map WalletEventResponse.event =
    scan.events.map WalletEventResponse.event ++ taken.filterMap (walletRow log)
  through : scan'.scannedThrough = (taken.getLast?.map (fun e => e.2 + 1)).getD scan.scannedThrough
  position : scan'.cursorPosition = (taken.getLast?.map (fun e => be 8 e.2)).or scan.cursorPosition

/-- The loop takes the first entries that are not above the anchor, and looks
whether one is left. -/
theorem eventLoop_ok (h : Growing σ blocks) (hle : t₀ ≤ t) {anchor : TipAnchor} {count : Nat}
    {entries : List (EventRecord × Nat)}
    (hentries : ∀ e ∈ entries, (logOf (blocks t₀)).events[e.2]? = some e.1 ∧ e.2 + 1 < 2 ^ 64)
    {scan scan' : WalletScan} (hroom : scan.scanned ≤ count)
    (hrun : (eventLoop libs viewingKey (some anchor) count (entries.map rowOf) scan).run σ t =
      .ok (scan', t')) :
    Scanned (logOf (blocks t₀))
        ((upToHeight anchor.height entries).take (count - scan.scanned)) scan scan' ∧
      scan'.hasMore =
        (scan.hasMore || decide (count - scan.scanned < (upToHeight anchor.height entries).length)) := by
  induction entries generalizing t scan with
  | nil =>
      obtain ⟨rfl, rfl⟩ := Prod.mk.inj (Except.ok.inj hrun)
      rw [show upToHeight anchor.height [] = [] from rfl, List.take_nil]
      exact ⟨⟨(List.append_nil _).symm, rfl, rfl⟩, (Bool.or_false _).symm⟩
  | cons entry entries ih =>
      have hrest : ∀ e ∈ entries, (logOf (blocks t₀)).events[e.2]? = some e.1 ∧ e.2 + 1 < 2 ^ 64 :=
        fun e he => hentries e (List.mem_cons_of_mem _ he)
      obtain ⟨hget, hid⟩ := hentries entry List.mem_cons_self
      rw [List.map_cons, eventLoop] at hrun
      have habove : aboveAnchor (some anchor) (rowOf entry).2.blockHeight =
          decide (entry.1.blockHeight > anchor.height) := rfl
      rw [habove] at hrun
      by_cases hheight : entry.1.blockHeight ≤ anchor.height
      · rw [if_neg (by simpa using hheight)] at hrun
        have hshown : upToHeight anchor.height (entry :: entries) =
            entry :: upToHeight anchor.height entries :=
          List.filter_cons_of_pos (decide_eq_true hheight)
        rw [hshown]
        by_cases hfull : scan.scanned = count
        · rw [if_pos hfull] at hrun
          obtain ⟨rfl, rfl⟩ := Prod.mk.inj (Except.ok.inj hrun)
          rw [hfull, Nat.sub_self, List.take_zero]
          refine ⟨⟨(List.append_nil _).symm, rfl, rfl⟩, ?_⟩
          have hleft : 0 < (entry :: upToHeight anchor.height entries).length := Nat.succ_pos _
          rw [decide_eq_true hleft, Bool.or_true]
        · rw [if_neg hfull] at hrun
          obtain ⟨next, t₁, hevent, hloop⟩ := run_bind_ok.mp hrun
          have hkey : fromBe (rowOf entry).1 = entry.2 := fromBe_be (show entry.2 < 256 ^ 8 by omega)
          rw [hkey] at hevent
          obtain ⟨hevents, hscanned, hthrough, hposition, hmore⟩ := scanEvent_ok h hle hget hid hevent
          obtain ⟨hdone, hdoneMore⟩ := ih (hle.trans (run_le hevent)) hrest (by omega) hloop
          have hcount : count - scan.scanned = (count - next.scanned) + 1 := by omega
          rw [hcount, List.take_succ_cons]
          refine ⟨⟨?_, ?_, ?_⟩, ?_⟩
          · rw [hdone.events, hevents, List.append_assoc, List.filterMap_cons]
            cases walletRow (logOf (blocks t₀)) entry <;> rfl
          · rw [hdone.through, hthrough, List.getLast?_cons]
            cases ((upToHeight anchor.height entries).take (count - next.scanned)).getLast? <;> rfl
          · rw [hdone.position, hposition, List.getLast?_cons]
            cases ((upToHeight anchor.height entries).take (count - next.scanned)).getLast? <;> rfl
          · rw [hdoneMore, hmore, List.length_cons, decide_eq_decide.mpr Nat.succ_lt_succ_iff]
      · rw [if_pos (by simpa using hheight)] at hrun
        have hshown : upToHeight anchor.height (entry :: entries) = upToHeight anchor.height entries :=
          List.filter_cons_of_neg (by simpa using hheight)
        rw [hshown]
        exact ih hle hrest hroom hrun

end Loop

end Nightfrost.WalletEvents
