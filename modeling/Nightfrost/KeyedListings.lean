import Nightfrost.Listings
import Nightfrost.PagedWalks

namespace Nightfrost.KeyedListings

open ByteOrder Tables Partitions Domain Schema MovingStore Api ExceptFold BlockRun Timeline Cursors
  Pages PagedWalks Listings

/-- An endpoint that lists the rows of a table as they are now, by key: the
prefix of the keys, the bytes of it that a cursor leaves out, and what it makes
of an entry. -/
structure KeyedListing (Row : Type) where
  part : Part
  scopeParts : List Bytes
  keyPrefix : Bytes
  implied : Bytes
  positionLen : Option Nat
  positionError : String
  rowOf : Bytes × part.Val → Handler Row

variable {Row : Type}

def KeyedListing.lower (l : KeyedListing Row) : Bound :=
  if l.keyPrefix = [] then .unbounded else .included l.keyPrefix

def KeyedListing.upper (l : KeyedListing Row) : Bound :=
  match prefixEnd l.keyPrefix with
  | some e => .excluded e
  | none => .unbounded

def KeyedListing.cursorKey (l : KeyedListing Row) : Option Bytes → Except ApiError (Option Bytes)
  | none => .ok none
  | some position =>
      if l.positionLen.any (fun n => position.length ≠ n) then .error (.badRequest l.positionError)
      else .ok (some (l.implied ++ position))

def KeyedListing.position (l : KeyedListing Row) (key : Bytes) : Bytes := key.drop l.implied.length

def KeyedListing.entries (l : KeyedListing Row) (order : Order) (cursorKey : Option Bytes) (s : Store) :
    List (Bytes × l.part.Val) :=
  match order, cursorKey with
  | .asc, some key => range (s l.part) (.excluded key) l.upper
  | .asc, none => range (s l.part) l.lower l.upper
  | .desc, some key => (range (s l.part) l.lower (.excluded key)).reverse
  | .desc, none => (range (s l.part) l.lower l.upper).reverse

def KeyedListing.page (l : KeyedListing Row) (codec : CursorCodec) (pagination : Pagination)
    (page : PageContext) : Handler (ApiResponse (List Row)) := do
  let cursorKey ← liftExcept (l.cursorKey page.position)
  let rows ← query (fun s => (l.entries pagination.order cursorKey s).take (pagination.count + 1))
  let hasMore := rows.length > pagination.count
  let rows := rows.take pagination.count
  let cursorPosition := rows.getLast?.map (fun row => l.position row.1)
  let results ← collect l.rowOf rows
  let cursor := nextCursor codec (scope l.scopeParts pagination.order) page.anchor cursorPosition hasMore
  pure ⟨results, page.anchor.map TipResponse.from, cursor⟩

def KeyedListing.request (l : KeyedListing Row) (codec : CursorCodec) (pagination : Pagination) :
    Handler (ApiResponse (List Row)) := do
  let page ← pageContext codec pagination (scope l.scopeParts pagination.order)
  l.page codec pagination page

section Orders

def keyBefore : Order → Bytes → Bytes → Prop
  | .asc, a, b => compare a b = .lt
  | .desc, a, b => compare b a = .lt

instance (order : Order) : DecidableRel (keyBefore order) := fun a b =>
  match order with
  | .asc => inferInstanceAs (Decidable (compare a b = .lt))
  | .desc => inferInstanceAs (Decidable (compare b a = .lt))

theorem keyBefore_irrefl (order : Order) (a : Bytes) : ¬ keyBefore order a a := by
  cases order <;> simp [keyBefore, Std.ReflOrd.compare_self]

theorem keyBefore_trans (order : Order) (a b c : Bytes) (h : keyBefore order a b)
    (h' : keyBefore order b c) : keyBefore order a c := by
  cases order with
  | asc => exact Std.TransCmp.lt_trans h h'
  | desc => exact Std.TransCmp.lt_trans h' h

def present {V : Type} (order : Order) (p : Bytes) (t : Table V) : List (Bytes × V) :=
  match order with
  | .asc => scanPrefix t p
  | .desc => (scanPrefix t p).reverse

theorem mem_present {V : Type} {order : Order} {p : Bytes} {t : Table V} {row : Bytes × V} :
    row ∈ present order p t ↔ t[row.1]? = some row.2 ∧ p <+: row.1 := by
  cases order with
  | asc => exact mem_scanPrefix
  | desc => exact List.mem_reverse.trans mem_scanPrefix

theorem present_sorted {V : Type} (order : Order) (p : Bytes) (t : Table V) :
    Sorted (keyBefore order) (present order p t) := by
  cases order with
  | asc => exact scanPrefix_sorted t p
  | desc => exact List.pairwise_reverse.mpr (scanPrefix_sorted t p)

end Orders

section Bounds

variable (l : KeyedListing Row)

theorem lower_above {k : Bytes} : l.lower.above k = true ↔ (compare l.keyPrefix k).isLE := by
  by_cases h : l.keyPrefix = []
  · rw [KeyedListing.lower, if_pos h, h]
    exact iff_of_true rfl (isLE_append [] k)
  · rw [KeyedListing.lower, if_neg h]
    exact Iff.rfl

theorem upper_below {k : Bytes} (h : l.keyPrefix <+: k) : l.upper.below k = true := by
  rw [KeyedListing.upper]
  cases he : prefixEnd l.keyPrefix with
  | none => rfl
  | some e => simpa [Bound.below] using below_prefixEnd h he

theorem prefix_isLE {p k : Bytes} (h : p <+: k) : (compare p k).isLE := by
  obtain ⟨rest, rfl⟩ := h
  exact isLE_append p rest

theorem prefix_of_upper {k : Bytes} (hle : (compare l.keyPrefix k).isLE) (hup : l.upper.below k = true) :
    l.keyPrefix <+: k := by
  by_contra hnot
  obtain ⟨-, e, he, hge⟩ := beyond_unprefixed hle hnot
  rw [KeyedListing.upper, he] at hup
  exact hge (by simpa [Bound.below] using hup)

theorem prefix_of_below {k key : Bytes} (hle : (compare l.keyPrefix k).isLE) (hkey : l.keyPrefix <+: key)
    (hlt : compare k key = .lt) : l.keyPrefix <+: k := by
  by_contra hnot
  obtain ⟨y, rfl⟩ := hkey
  rw [(beyond_unprefixed hle hnot).1 y] at hlt
  cases hlt

theorem mem_entries {order : Order} {cursor : Option Bytes} {s : Store} {e : Bytes × l.part.Val}
    (hcursor : ∀ key, cursor = some key → l.keyPrefix <+: key) :
    e ∈ l.entries order cursor s ↔ e ∈ after (keyBefore order) Prod.fst cursor
      (present order l.keyPrefix (s l.part)) := by
  rw [mem_after_iff, mem_present, and_assoc]
  cases cursor with
  | none =>
      have hbounds : (l.lower.above e.1 = true ∧ l.upper.below e.1 = true) ↔ l.keyPrefix <+: e.1 :=
        ⟨fun h => prefix_of_upper l ((lower_above l).mp h.1) h.2,
          fun h => ⟨(lower_above l).mpr (prefix_isLE h), upper_below l h⟩⟩
      cases order <;> simp [KeyedListing.entries, mem_range, hbounds]
  | some key =>
      have hkey := hcursor key rfl
      cases order with
      | asc =>
          have habove : (Bound.excluded key).above e.1 = true ↔ compare key e.1 = .lt := by
            simp [Bound.above]
          simp only [KeyedListing.entries, mem_range, habove, Option.some.injEq, forall_eq']
          apply and_congr_right
          intro _
          constructor
          · rintro ⟨hlt, hup⟩
            refine ⟨prefix_of_upper l ?_ hup, hlt⟩
            exact Std.TransCmp.isLE_trans (prefix_isLE hkey) (by rw [hlt]; rfl)
          · rintro ⟨hp, hlt⟩
            exact ⟨hlt, upper_below l hp⟩
      | desc =>
          have hbelow : (Bound.excluded key).below e.1 = true ↔ compare e.1 key = .lt := by
            simp [Bound.below]
          simp only [KeyedListing.entries, List.mem_reverse, mem_range, hbelow, lower_above,
            Option.some.injEq, forall_eq']
          apply and_congr_right
          intro _
          constructor
          · rintro ⟨hle, hlt⟩
            exact ⟨prefix_of_below l hle hkey hlt, hlt⟩
          · rintro ⟨hp, hlt⟩
            exact ⟨prefix_isLE hp, hlt⟩

theorem entries_sorted (order : Order) (cursorKey : Option Bytes) (s : Store) :
    Sorted (keyBefore order) (l.entries order cursorKey s) := by
  cases order with
  | asc => cases cursorKey <;> exact range_sorted _ _ _
  | desc => cases cursorKey <;> exact List.pairwise_reverse.mpr (range_sorted _ _ _)

theorem entries_eq (order : Order) {cursor : Option Bytes} (s : Store)
    (hcursor : ∀ key, cursor = some key → l.keyPrefix <+: key) :
    l.entries order cursor s = after (keyBefore order) Prod.fst cursor
      (present order l.keyPrefix (s l.part)) := by
  refine eq_of_sorted (r := fun a b => keyBefore order a.1 b.1) ?_ ?_ ?_ ?_ ?_
  · intro a
    exact keyBefore_irrefl order a.1
  · intro a b c
    exact keyBefore_trans order a.1 b.1 c.1
  · exact entries_sorted l order cursor s
  · exact (present_sorted order l.keyPrefix (s l.part)).sublist (after_sublist _ _)
  · intro e
    exact mem_entries l hcursor

end Bounds

section Pages

/-- A key of the listing whose position is one that a cursor can have. -/
structure Fits (l : KeyedListing Row) (key : Bytes) : Prop where
  under : l.keyPrefix <+: key
  length : ∀ n, l.positionLen = some n → key.length = l.implied.length + n

/-- What a listing asks of a table that blocks are written to: its keys fit a
cursor, and the lookups of a row succeed from then on. -/
structure Serves (l : KeyedListing Row) (σ : Nat → Store)
    (shown : Nat → Bytes × l.part.Val → Row → Prop) : Prop where
  implied : l.implied <+: l.keyPrefix
  fits : ∀ t k v, (σ t l.part)[k]? = some v → l.keyPrefix <+: k → Fits l k
  rowOf : ∀ t u e, t ≤ u → (σ t l.part)[e.1]? = some e.2 → l.keyPrefix <+: e.1 →
    ∃ row u', (l.rowOf e).run σ u = .ok (row, u') ∧ shown t e row

def tokenOf (codec : CursorCodec) (l : KeyedListing Row) (order : Order) (anchor : TipAnchor)
    (key : Bytes) : String :=
  codec.encode (scope l.scopeParts order) anchor (l.position key)

def behind (l : KeyedListing Row) (order : Order) (cursor : Option Bytes) (s : Store) :
    List (Bytes × l.part.Val) :=
  after (keyBefore order) Prod.fst cursor (present order l.keyPrefix (s l.part))

structure Answers (codec : CursorCodec) (l : KeyedListing Row) (σ : Nat → Store)
    (shown : Nat → Bytes × l.part.Val → Row → Prop) (order : Order) (count : Nat)
    (anchor : TipAnchor) (cursor : Option Bytes) (u : Nat) (page : ApiResponse (List Row)) : Prop where
  results : List.Forall₂ (shown u) ((behind l order cursor (σ u)).take count) page.results
  next : page.nextCursor = if (behind l order cursor (σ u)).length > count then
    ((behind l order cursor (σ u)).take count).getLast?.map (fun row => tokenOf codec l order anchor row.1)
    else none

variable {σ : Nat → Store} {blocks : Nat → List DerivedBlock} {l : KeyedListing Row}
  {shown : Nat → Bytes × l.part.Val → Row → Prop} {codec : CursorCodec} {order : Order}
  {count t₀ : Nat} {anchor : TipAnchor}

theorem cursorKey_position (hs : Serves l σ shown) {key : Bytes} (hkey : Fits l key) :
    l.cursorKey (some (l.position key)) = .ok (some key) := by
  obtain ⟨rest, rfl⟩ := hs.implied.trans hkey.under
  have hlen : ¬ l.positionLen.any (fun n => rest.length ≠ n) = true := by
    cases hn : l.positionLen with
    | none => simp
    | some n =>
        have hrest := hkey.length n hn
        rw [List.length_append] at hrest
        have heq : rest.length = n := by omega
        simp [heq]
  rw [KeyedListing.position, List.drop_left, KeyedListing.cursorKey, if_neg hlen]

theorem collect_run {f : Bytes × l.part.Val → Handler Row} {P : Bytes × l.part.Val → Row → Prop} {t : Nat}
    (rows : List (Bytes × l.part.Val))
    (hf : ∀ e ∈ rows, ∀ u, t ≤ u → ∃ row u', (f e).run σ u = .ok (row, u') ∧ P e row) {u : Nat} (hle : t ≤ u) :
    ∃ results u', (collect f rows).run σ u = .ok (results, u') ∧ List.Forall₂ P rows results := by
  induction rows generalizing u with
  | nil => exact ⟨[], u, rfl, .nil⟩
  | cons e rows ih =>
      obtain ⟨row, u₁, hrun, hrow⟩ := hf e List.mem_cons_self u hle
      obtain ⟨results, u₂, hrest, hall⟩ := ih (fun e' he => hf e' (List.mem_cons_of_mem _ he))
        (hle.trans (run_le hrun))
      refine ⟨row :: results, u₂, ?_, .cons hrow hall⟩
      rw [collect, run_bind, hrun]
      change (collect f rows >>= _ : Handler _).run σ u₁ = _
      rw [run_bind, hrest]
      rfl

theorem nextCursor_some (codec : CursorCodec) (queryScope : Bytes) (anchor : TipAnchor)
    (position : Option Bytes) (hasMore : Bool) :
    nextCursor codec queryScope (some anchor) position hasMore =
      if hasMore then position.map (codec.encode queryScope anchor) else none := by
  cases hasMore <;> cases position <;> rfl

theorem page_run (codec : CursorCodec) (order : Order) (count : Nat) (anchor : TipAnchor)
    (token : Option String) (hs : Serves l σ shown) {cursor : Option Bytes}
    (hcursor : ∀ key, cursor = some key → Fits l key) (t : Nat) :
    ∃ page t', (l.page codec ⟨count, order, token, none⟩ ⟨some anchor, cursor.map l.position⟩).run σ t =
        .ok (page, t') ∧ t + 1 ≤ t' ∧ Answers codec l σ shown order count anchor cursor t page := by
  have hkey : l.cursorKey (cursor.map l.position) = .ok cursor := by
    cases cursor with
    | none => rfl
    | some key => exact cursorKey_position hs (hcursor key rfl)
  have hrows : l.entries order cursor (σ t) = behind l order cursor (σ t) :=
    entries_eq l order (σ t) (fun key hk => (hcursor key hk).under)
  have hmore : (((behind l order cursor (σ t)).take (count + 1)).length > count) ↔
      (behind l order cursor (σ t)).length > count := by
    rw [List.length_take]
    omega
  have htake : ((behind l order cursor (σ t)).take (count + 1)).take count =
      (behind l order cursor (σ t)).take count := by
    rw [List.take_take, Nat.min_eq_left (Nat.le_succ _)]
  obtain ⟨results, t', hcollect, hall⟩ := collect_run (f := l.rowOf) (P := shown t)
    ((behind l order cursor (σ t)).take count) (t := t) (u := t + 1)
    (fun e he u hu => by
      obtain ⟨hget, hunder⟩ := mem_present.mp (mem_after_iff.mp (List.mem_of_mem_take he)).1
      exact hs.rowOf t u e hu hget hunder) (Nat.le_succ t)
  refine ⟨⟨results, some (TipResponse.from anchor), nextCursor codec (scope l.scopeParts order) (some anchor)
    (((behind l order cursor (σ t)).take count).getLast?.map (fun row => l.position row.1))
    ((behind l order cursor (σ t)).length > count)⟩, t', ?_, run_le hcollect, hall, ?_⟩
  · rw [KeyedListing.page, hkey]
    change (query _ >>= _ : Handler _).run σ t = _
    rw [run_bind, run_query]
    dsimp only
    rw [hrows, htake, run_bind, hcollect]
    simp only [hmore]
    rfl
  · change nextCursor codec _ (some anchor) _ _ = _
    rw [nextCursor_some, Option.map_map]
    by_cases h : (behind l order cursor (σ t)).length > count
    · rw [decide_eq_true h, if_pos rfl, if_pos h]
      rfl
    · rw [decide_eq_false h, if_neg Bool.false_ne_true, if_neg h]

end Pages

section Requests

variable {σ : Nat → Store} {blocks : Nat → List DerivedBlock} {l : KeyedListing Row}
  {shown : Nat → Bytes × l.part.Val → Row → Prop} {codec : CursorCodec} {order : Order}
  {count t₀ : Nat} {anchor : TipAnchor}

def Stands (l : KeyedListing Row) (t₀ : Nat) (cursor : Option Bytes) (t : Nat) : Prop :=
  match cursor with
  | none => t = t₀
  | some key => t₀ ≤ t ∧ Fits l key

theorem Stands.fits {cursor : Option Bytes} {t : Nat} (h : Stands l t₀ cursor t) :
    ∀ key, cursor = some key → Fits l key := by
  rintro key rfl
  exact h.2

theorem Stands.le {cursor : Option Bytes} {t : Nat} (h : Stands l t₀ cursor t) : t₀ ≤ t := by
  cases cursor with
  | none => exact Nat.le_of_eq h.symm
  | some key => exact h.1

theorem request_run (order : Order) (hl : codec.Lawful) (h : Growing σ blocks) (hs : Serves l σ shown)
    (ha : Anchored (blocks t₀) anchor) (htip : currentTip.run σ t₀ = .ok (some anchor, t₀ + 2))
    (hcount : 1 ≤ count ∧ count ≤ 5000) {cursor : Option Bytes} {t : Nat} (hstands : Stands l t₀ cursor t)
    (hshort : ∀ key, cursor = some key → (l.position key).length ≤ 690) :
    ∃ page t' u, (l.request codec ⟨count, order, cursor.map (tokenOf codec l order anchor), none⟩).run σ t =
      .ok (page, t') ∧ t ≤ u ∧ u < t' ∧ Answers codec l σ shown order count anchor cursor u page := by
  cases cursor with
  | none =>
      obtain rfl : t = t₀ := hstands
      obtain ⟨page, t', hrun, hle, hpage⟩ := page_run codec order count anchor none hs 
        (fun key (hk : none = some key) => by cases hk) (t + 2)
      refine ⟨page, t', t + 2, ?_, by omega, hle, hpage⟩
      rw [KeyedListing.request, run_bind, Option.map_none, pageContext_first codec order _ htip hcount]
      exact hrun
  | some key =>
      obtain ⟨page, t', hrun, hle, hpage⟩ := page_run codec order count anchor
        (some (tokenOf codec l order anchor key)) hs hstands.fits (t + 1)
      refine ⟨page, t', t + 1, ?_, by omega, hle, hpage⟩
      rw [KeyedListing.request, run_bind, Option.map_some, tokenOf,
        pageContext_next order _ hl h ha hstands.le hcount (hshort key rfl)]
      exact hrun

theorem request_refused (order : Order) (hl : codec.Lawful) (anchor : TipAnchor)
    (hcount : 1 ≤ count ∧ count ≤ 5000) {key : Bytes} (hlong : ¬ (l.position key).length ≤ 690) (t : Nat) :
    (l.request codec ⟨count, order, some (tokenOf codec l order anchor key), none⟩).run σ t =
      .error (.badRequest "cursor is too long") := by
  have hsize : (tokenOf codec l order anchor key).utf8ByteSize > maxCursorLen :=
    Nat.lt_of_not_le fun hle => hlong ((encode_size_iff hl _ anchor _).mp hle)
  have hvalid : (⟨count, order, some (tokenOf codec l order anchor key), none⟩ : Pagination).validate =
      .error (.badRequest "cursor is too long") := by
    rw [Pagination.validate, if_neg (not_not.mpr hcount)]
    simpa using hsize
  rw [KeyedListing.request, run_bind, pageContext, hvalid]
  rfl

theorem last_stands (hs : Serves l σ shown) {cursor : Option Bytes}
    {t u t' : Nat} (hstands : Stands l t₀ cursor t) (hle : t ≤ t') {row : Bytes × l.part.Val}
    (hlast : ((behind l order cursor (σ u)).take count).getLast? = some row) :
    Stands l t₀ (some row.1) t' := by
  have hmem := List.mem_of_mem_take (List.mem_of_getLast? hlast)
  obtain ⟨hget, hunder⟩ := mem_present.mp (mem_after_iff.mp hmem).1
  exact ⟨hstands.le.trans hle, hs.fits u row.1 row.2 hget hunder⟩

end Requests

section Walks

/-- A request of a walk: the moments at which it began and ended, and its page. -/
structure Request (Row : Type) where
  start : Nat
  stop : Nat
  page : ApiResponse (List Row)

inductive Requests (σ : Nat → Store) (endpoint : Option String → Handler (ApiResponse (List Row)))
    (delay : Nat → Nat) : Nat → Option String → List (Request Row) → Prop
  | last {t t' : Nat} {cursor : Option String} {page : ApiResponse (List Row)}
      (hrun : (endpoint cursor).run σ t = .ok (page, t')) (hlast : page.nextCursor = none) :
      Requests σ endpoint delay t cursor [⟨t, t', page⟩]
  | next {t t' : Nat} {cursor : Option String} {page : ApiResponse (List Row)} {token : String}
      {requests : List (Request Row)} (hrun : (endpoint cursor).run σ t = .ok (page, t'))
      (hnext : page.nextCursor = some token)
      (h : Requests σ endpoint delay (t' + delay t') (some token) requests) :
      Requests σ endpoint delay t cursor (⟨t, t', page⟩ :: requests)

/-- A request as a visit of the table at a moment between its start and its end. -/
structure Shows (σ : Nat → Store) (part : Part) (keyPrefix : Bytes) (shown : Nat → Bytes × part.Val → Row → Prop)
    (order : Order) (count : Nat) (request : Request Row) (visit : Visit Bytes part.Val) : Prop where
  moment : ∃ u, request.start ≤ u ∧ u < request.stop ∧ visit.held = present order keyPrefix (σ u part) ∧
    List.Forall₂ (shown u) visit.page request.page.results
  rows : visit.page.Sublist visit.held
  size : request.page.results.length ≤ count

/-- Every finished walk over the rows with a prefix returns, in key order and
under the prefix, each row that all its requests found exactly once, so each row
that was there during all of them, and a page has no next cursor just when its
request found no row behind those returned so far. -/
def Stable (σ : Nat → Store) (blocks : Nat → List DerivedBlock)
    (endpoint : Pagination → Handler (ApiResponse (List Row))) (part : Part) (keyPrefix : Bytes)
    (shown : Nat → Bytes × part.Val → Row → Prop) : Prop :=
  ∀ (count : Nat) (order : Order) (delay : Nat → Nat) (t₀ : Nat) (requests : List (Request Row)),
    1 ≤ count ∧ count ≤ 5000 → blocks t₀ ≠ [] →
    Requests σ (fun cursor => endpoint ⟨count, order, cursor, none⟩) delay t₀ none requests →
    ∃ visits : List (Visit Bytes part.Val),
      List.Forall₂ (Shows σ part keyPrefix shown order count) requests visits ∧
      Sorted (keyBefore order) (returned visits) ∧
      (∀ row ∈ returned visits, keyPrefix <+: row.1) ∧
      (∀ key, (∀ visit ∈ visits, key ∈ visit.held.map Prod.fst) →
        ((returned visits).map Prod.fst).count key = 1) ∧
      (∀ key, keyPrefix <+: key →
        (∀ request ∈ requests, ∀ u, request.start ≤ u → u < request.stop → key ∈ σ u part) →
        ((returned visits).map Prod.fst).count key = 1) ∧
      ∀ (i : Nat) (request : Request Row) (visit : Visit Bytes part.Val),
        requests[i]? = some request → visits[i]? = some visit →
        (request.page.nextCursor = none ↔ ∀ e ∈ visit.held,
          ¬ Beyond (keyBefore order) (returned (visits.take (i + 1))) e.1)

variable {σ : Nat → Store} {blocks : Nat → List DerivedBlock} {l : KeyedListing Row}
  {shown : Nat → Bytes × l.part.Val → Row → Prop} {codec : CursorCodec} {order : Order}
  {count t₀ : Nat} {anchor : TipAnchor} {delay : Nat → Nat}

theorem walk_requests {endpoint : Option String → Handler (ApiResponse (List Row))} {t : Nat}
    {cursor : Option String} {pages : List (ApiResponse (List Row))} (h : Walk σ endpoint delay t cursor pages) :
    ∃ requests, Requests σ endpoint delay t cursor requests ∧ requests.map Request.page = pages := by
  induction h with
  | last hrun hlast => exact ⟨_, .last hrun hlast, rfl⟩
  | next hrun hnext h ih =>
      obtain ⟨requests, hrequests, rfl⟩ := ih
      exact ⟨_, .next hrun hnext hrequests, rfl⟩

theorem behind_sorted (l : KeyedListing Row) (order : Order) (cursor : Option Bytes) (s : Store) :
    Sorted (keyBefore order) (behind l order cursor s) :=
  (present_sorted order l.keyPrefix (s l.part)).sublist (after_sublist _ _)

theorem Answers.final {cursor : Option Bytes} {u : Nat} {page : ApiResponse (List Row)} (hcount : 1 ≤ count)
    (h : Answers codec l σ shown order count anchor cursor u page) (hnone : page.nextCursor = none) :
    (behind l order cursor (σ u)).take count = behind l order cursor (σ u) := by
  apply List.take_of_length_le
  by_contra hmore
  rw [h.next, if_pos (Nat.lt_of_not_le hmore), Option.map_eq_none_iff, List.getLast?_eq_none_iff,
    List.take_eq_nil_iff] at hnone
  rcases hnone with hzero | hnil
  · omega
  · rw [hnil] at hmore
    exact hmore (Nat.zero_le _)

theorem Answers.more {cursor : Option Bytes} {u : Nat} {page : ApiResponse (List Row)} {token : String}
    (h : Answers codec l σ shown order count anchor cursor u page) (hsome : page.nextCursor = some token) :
    (behind l order cursor (σ u)).length > count ∧ ∃ last,
      ((behind l order cursor (σ u)).take count).getLast? = some last ∧
        token = tokenOf codec l order anchor last.1 := by
  rw [h.next] at hsome
  by_cases hmore : (behind l order cursor (σ u)).length > count
  · rw [if_pos hmore] at hsome
    obtain ⟨last, hlast, rfl⟩ := Option.map_eq_some_iff.mp hsome
    exact ⟨hmore, last, hlast, rfl⟩
  · rw [if_neg hmore] at hsome
    cases hsome

theorem Answers.shows {cursor : Option Bytes} {t u t' : Nat} {page : ApiResponse (List Row)}
    (h : Answers codec l σ shown order count anchor cursor u page) (hle : t ≤ u) (hlt : u < t') :
    Shows σ l.part l.keyPrefix shown order count ⟨t, t', page⟩
      ⟨present order l.keyPrefix (σ u l.part), (behind l order cursor (σ u)).take count⟩ := by
  refine ⟨⟨u, hle, hlt, rfl, h.results⟩, (List.take_sublist _ _).trans (after_sublist _ _), ?_⟩
  rw [← h.results.length_eq, List.length_take]
  exact Nat.min_le_left _ _

theorem walk_visits (hl : codec.Lawful) (h : Growing σ blocks) (hs : Serves l σ shown)
    (ha : Anchored (blocks t₀) anchor) (htip : currentTip.run σ t₀ = .ok (some anchor, t₀ + 2))
    (hcount : 1 ≤ count ∧ count ≤ 5000) {t : Nat} {token : Option String} {requests : List (Request Row)}
    (hw : Requests σ (fun cursor => l.request codec ⟨count, order, cursor, none⟩) delay t token requests) :
    ∀ cursor : Option Bytes, token = cursor.map (tokenOf codec l order anchor) → Stands l t₀ cursor t →
      ∃ visits : List (Visit Bytes l.part.Val), Visits (keyBefore order) cursor visits ∧
        List.Forall₂ (Shows σ l.part l.keyPrefix shown order count) requests visits ∧
        (∀ visit ∈ visits, ∃ u, visit.held = present order l.keyPrefix (σ u l.part)) ∧
        ∀ (i : Nat) (request : Request Row) (visit : Visit Bytes l.part.Val),
          requests[i]? = some request → visits[i]? = some visit →
          (request.page.nextCursor = none ↔ ∀ e ∈ visit.held, ¬ ((∀ p, cursor = some p → keyBefore order p e.1) ∧
            Beyond (keyBefore order) (returned (visits.take (i + 1))) e.1)) := by
  have hanswer : ∀ (cursor : Option Bytes) (t t' : Nat) (page : ApiResponse (List Row)), Stands l t₀ cursor t →
      (l.request codec ⟨count, order, cursor.map (tokenOf codec l order anchor), none⟩).run σ t =
        .ok (page, t') → ∃ u, t ≤ u ∧ u < t' ∧ Answers codec l σ shown order count anchor cursor u page := by
    intro cursor t t' page hstands hrun
    by_cases hshort : ∀ key, cursor = some key → (l.position key).length ≤ 690
    · obtain ⟨page', t'', u, hrun', hle, hlt, hpage⟩ := request_run order hl h hs ha htip hcount hstands hshort
      obtain ⟨rfl, rfl⟩ := Prod.mk.inj (Except.ok.inj (hrun.symm.trans hrun'))
      exact ⟨u, hle, hlt, hpage⟩
    · push Not at hshort
      obtain ⟨key, rfl, hlong⟩ := hshort
      rw [Option.map_some, request_refused order hl anchor hcount (by omega) t] at hrun
      cases hrun
  induction hw with
  | @last t t' token page hrun hnone =>
      rintro cursor rfl hstands
      obtain ⟨u, hle, hlt, hpage⟩ := hanswer cursor t t' page hstands hrun
      have hall := hpage.final hcount.1 hnone
      have hshows := hpage.shows hle hlt
      rw [hall] at hshows
      refine ⟨[_], .final, .cons hshows .nil, ?_, ?_⟩
      · intro visit hvisit
        rw [List.mem_singleton.mp hvisit]
        exact ⟨u, rfl⟩
      · intro i request visit hp hv
        cases i with
        | succ i => simp at hp
        | zero =>
            simp only [List.getElem?_cons_zero, Option.some.injEq] at hp hv
            subst hp hv
            refine iff_of_true hnone fun e he hbehind => ?_
            have hmem := mem_after_iff.mpr ⟨he, hbehind.1⟩
            refine keyBefore_irrefl order e.1 (hbehind.2 e ?_)
            simpa [returned] using hmem
  | @next t t' token page token' requests hrun hsome hw ih =>
      rintro cursor rfl hstands
      obtain ⟨u, hle, hlt, hpage⟩ := hanswer cursor t t' page hstands hrun
      obtain ⟨hmore, last, hlast, rfl⟩ := hpage.more hsome
      obtain ⟨visits, hvisits, hshows, hheld, hnext⟩ := ih (some last.1) rfl
        (last_stands hs hstands ((run_le hrun).trans (Nat.le_add_right _ _)) hlast)
      refine ⟨⟨present order l.keyPrefix (σ u l.part), (behind l order cursor (σ u)).take count⟩ :: visits,
        .next (List.take_prefix count _) hlast hvisits, .cons (hpage.shows hle hlt) hshows, ?_, ?_⟩
      · intro visit hvisit
        rcases List.mem_cons.mp hvisit with rfl | hvisit
        · exact ⟨u, rfl⟩
        · exact hheld visit hvisit
      · intro i request visit hp hv
        cases i with
        | zero =>
            simp only [List.getElem?_cons_zero, Option.some.injEq] at hp hv
            subst hp hv
            obtain ⟨row, hrow, hbeyond⟩ := left_out (behind_sorted l order cursor (σ u)) hmore
            obtain ⟨hin, hbehind⟩ := mem_after_iff.mp hrow
            refine iff_of_false (by rw [hsome]; exact Option.some_ne_none _) fun hall => hall row hin ⟨hbehind, ?_⟩
            simpa [returned] using hbeyond
        | succ i =>
            rw [List.getElem?_cons_succ] at hp hv
            rw [hnext i request visit hp hv, List.take_succ_cons, returned_cons]
            refine forall₂_congr fun e _ => not_congr ?_
            have hlast' := mem_after_iff.mp (List.mem_of_mem_take (List.mem_of_getLast? hlast))
            rw [beyond_page (keyBefore_trans order) ((behind_sorted l order cursor (σ u)).sublist
              (List.take_sublist _ _)) hlast hlast'.2]
            simp only [Option.some.injEq, forall_eq']

theorem exists_right {α β : Type} {R : α → β → Prop} {xs : List α} {ys : List β} (h : List.Forall₂ R xs ys) {y : β}
    (hy : y ∈ ys) : ∃ x ∈ xs, R x y :=
  forall₂_mem (R := flip R) (List.Forall₂.flip h) hy

theorem Serves.stable (hl : codec.Lawful) (h : Growing σ blocks) (hs : Serves l σ shown) :
    Stable σ blocks (l.request codec) l.part l.keyPrefix shown := by
  intro count order delay t₀ requests hcount hne hw
  obtain ⟨anchor, ha, htip⟩ := anchored_of_tip h hne
  obtain ⟨visits, hvisits, hshows, hheld, hnext⟩ := walk_visits hl h hs ha htip hcount hw none rfl rfl
  have hsorted : ∀ visit ∈ visits, Sorted (keyBefore order) visit.held := by
    intro visit hvisit
    obtain ⟨u, hu⟩ := hheld visit hvisit
    rw [hu]
    exact present_sorted order l.keyPrefix (σ u l.part)
  have honce : ∀ key, (∀ visit ∈ visits, key ∈ visit.held.map Prod.fst) →
      ((returned visits).map Prod.fst).count key = 1 := by
    intro key hall
    exact hvisits.count_eq_one (keyBefore_irrefl order) (keyBefore_trans order) hsorted
      (fun p hp => by cases hp) hall
  refine ⟨visits, hshows, hvisits.sorted (keyBefore_trans order) hsorted, ?_, honce, ?_, ?_⟩
  · intro row hrow
    obtain ⟨⟨visit, hvisit, hin, -⟩, -⟩ := hvisits.mem_returned (keyBefore_trans order) hrow
    obtain ⟨u, hu⟩ := hheld visit hvisit
    rw [hu] at hin
    exact (mem_present.mp hin).2
  · intro key hunder hall
    refine honce key fun visit hvisit => ?_
    obtain ⟨request, hrequest, ⟨u, hle, hlt, hheld, -⟩, -⟩ := exists_right hshows hvisit
    obtain ⟨v, hget⟩ := mem_iff.mp (hall request hrequest u hle hlt)
    rw [hheld]
    exact List.mem_map.mpr ⟨(key, v), mem_present.mpr ⟨hget, hunder⟩, rfl⟩
  · intro i request visit hp hv
    rw [hnext i request visit hp hv]
    refine forall₂_congr fun e _ => not_congr (and_iff_right fun p hp => ?_)
    cases hp

theorem Stable.rows {endpoint : Pagination → Handler (ApiResponse (List Row))} {part : Part} {keyPrefix : Bytes}
    {shown : Nat → Bytes × part.Val → Row → Prop} (hs : Stable σ blocks endpoint part keyPrefix shown)
    {pages : List (ApiResponse (List Row))} (hcount : 1 ≤ count ∧ count ≤ 5000) (hne : blocks t₀ ≠ [])
    (hw : Walk σ (fun cursor => endpoint ⟨count, order, cursor, none⟩) delay t₀ none pages) :
    (∀ row ∈ pages.flatMap ApiResponse.results, ∃ u e, (σ u part)[e.1]? = some e.2 ∧ keyPrefix <+: e.1 ∧
      shown u e row) ∧
    ∀ e, (∀ u, (σ u part)[e.1]? = some e.2) → keyPrefix <+: e.1 →
      ∃ row ∈ pages.flatMap ApiResponse.results, ∃ u, shown u e row := by
  obtain ⟨requests, hrequests, rfl⟩ := walk_requests hw
  obtain ⟨visits, hshows, -, -, -, honce, -⟩ := hs count order delay t₀ requests hcount hne hrequests
  constructor
  · intro row hrow
    obtain ⟨page, hpage, hrow⟩ := List.mem_flatMap.mp hrow
    obtain ⟨request, hrequest, rfl⟩ := List.mem_map.mp hpage
    obtain ⟨visit, -, ⟨u, -, -, hheld, hresults⟩, hsub, -⟩ := forall₂_mem hshows hrequest
    obtain ⟨e, he, hshown⟩ := exists_right hresults hrow
    have hmem := hsub.subset he
    rw [hheld] at hmem
    obtain ⟨hget, hunder⟩ := mem_present.mp hmem
    exact ⟨u, e, hget, hunder, hshown⟩
  · intro e hget hunder
    have hmem : e.1 ∈ (returned visits).map Prod.fst := by
      rw [← List.count_pos_iff, honce e.1 hunder fun _ _ u _ _ => mem_iff.mpr ⟨e.2, hget u⟩]
      exact Nat.one_pos
    obtain ⟨e', he', hkey⟩ := List.mem_map.mp hmem
    obtain ⟨visit, hvisit, he'⟩ := List.mem_flatMap.mp he'
    obtain ⟨request, hrequest, ⟨u, -, -, hheld, hresults⟩, hsub, -⟩ := exists_right hshows hvisit
    have hin := hsub.subset he'
    rw [hheld] at hin
    have hvalue := (mem_present.mp hin).1
    rw [hkey, hget u, Option.some.injEq] at hvalue
    obtain rfl : e = e' := Prod.ext hkey.symm hvalue
    obtain ⟨row, hrow, hshown⟩ := forall₂_mem hresults he'
    exact ⟨row, List.mem_flatMap.mpr ⟨request.page, List.mem_map_of_mem hrequest, hrow⟩, u, hshown⟩

end Walks

section Progress

inductive Follows (σ : Nat → Store) (endpoint : Option String → Handler (ApiResponse (List Row)))
    (delay : Nat → Nat) (t₀ : Nat) : Nat → Option String → Prop
  | start : Follows σ endpoint delay t₀ t₀ none
  | next {t t' : Nat} {cursor : Option String} {page : ApiResponse (List Row)} {token : String}
      (h : Follows σ endpoint delay t₀ t cursor) (hrun : (endpoint cursor).run σ t = .ok (page, t'))
      (hnext : page.nextCursor = some token) : Follows σ endpoint delay t₀ (t' + delay t') (some token)

/-- Every request of a walk succeeds, and the walk comes to an end once no block
touches the table any more. -/
structure Proceeds (σ : Nat → Store) (blocks : Nat → List DerivedBlock)
    (endpoint : Pagination → Handler (ApiResponse (List Row))) (part : Part) : Prop where
  answers : ∀ (count : Nat) (order : Order) (delay : Nat → Nat) (t₀ t : Nat) (cursor : Option String),
    1 ≤ count ∧ count ≤ 5000 → blocks t₀ ≠ [] →
    Follows σ (fun cursor => endpoint ⟨count, order, cursor, none⟩) delay t₀ t cursor →
    ∃ page t', (endpoint ⟨count, order, cursor, none⟩).run σ t = .ok (page, t')
  ends : ∀ (count : Nat) (order : Order) (delay : Nat → Nat) (t₀ T : Nat),
    1 ≤ count ∧ count ≤ 5000 → blocks t₀ ≠ [] → (∀ t, T ≤ t → σ t part = σ T part) →
    ∃ pages, Walk σ (fun cursor => endpoint ⟨count, order, cursor, none⟩) delay t₀ none pages

variable {σ : Nat → Store} {blocks : Nat → List DerivedBlock} {l : KeyedListing Row}
  {shown : Nat → Bytes × l.part.Val → Row → Prop} {codec : CursorCodec} {order : Order}
  {count t₀ T : Nat} {anchor : TipAnchor} {delay : Nat → Nat}

def Short (l : KeyedListing Row) (σ : Nat → Store) : Prop :=
  ∀ t k v, (σ t l.part)[k]? = some v → l.keyPrefix <+: k → (l.position k).length ≤ 690

structure Ready (l : KeyedListing Row) (t₀ : Nat) (cursor : Option Bytes) (t : Nat) : Prop where
  stands : Stands l t₀ cursor t
  short : ∀ key, cursor = some key → (l.position key).length ≤ 690

theorem last_ready (hs : Serves l σ shown) (hshort : Short l σ) {cursor : Option Bytes} {t u t' : Nat}
    (hready : Ready l t₀ cursor t) (hle : t ≤ t') {row : Bytes × l.part.Val}
    (hlast : ((behind l order cursor (σ u)).take count).getLast? = some row) :
    Ready l t₀ (some row.1) t' := by
  refine ⟨last_stands hs hready.stands hle hlast, fun key hkey => ?_⟩
  obtain rfl := Option.some.inj hkey
  have hmem := List.mem_of_mem_take (List.mem_of_getLast? hlast)
  obtain ⟨hget, hunder⟩ := mem_present.mp (mem_after_iff.mp hmem).1
  exact hshort u row.1 row.2 hget hunder

theorem follows_ready (hl : codec.Lawful) (h : Growing σ blocks) (hs : Serves l σ shown) (hshort : Short l σ)
    (ha : Anchored (blocks t₀) anchor) (htip : currentTip.run σ t₀ = .ok (some anchor, t₀ + 2))
    (hcount : 1 ≤ count ∧ count ≤ 5000) {t : Nat} {token : Option String}
    (hf : Follows σ (fun cursor => l.request codec ⟨count, order, cursor, none⟩) delay t₀ t token) :
    ∃ cursor : Option Bytes, token = cursor.map (tokenOf codec l order anchor) ∧ Ready l t₀ cursor t := by
  induction hf with
  | start =>
      refine ⟨none, rfl, rfl, fun key hkey => ?_⟩
      cases hkey
  | @next t t' token page token' hf hrun hsome ih =>
      obtain ⟨cursor, rfl, hready⟩ := ih
      obtain ⟨page', t'', u, hrun', -, -, hpage⟩ :=
        request_run order hl h hs ha htip hcount hready.stands hready.short
      obtain ⟨rfl, rfl⟩ := Prod.mk.inj (Except.ok.inj (hrun.symm.trans hrun'))
      obtain ⟨-, last, hlast, rfl⟩ := hpage.more hsome
      exact ⟨some last.1, rfl, last_ready hs hshort hready ((run_le hrun).trans (Nat.le_add_right _ _)) hlast⟩

theorem walk_step (hl : codec.Lawful) (h : Growing σ blocks) (hs : Serves l σ shown) (hshort : Short l σ)
    (ha : Anchored (blocks t₀) anchor) (htip : currentTip.run σ t₀ = .ok (some anchor, t₀ + 2))
    (hcount : 1 ≤ count ∧ count ≤ 5000) {cursor : Option Bytes} {t : Nat} (hready : Ready l t₀ cursor t)
    (hrest : ∀ u t' last, t ≤ u → t < t' → (behind l order cursor (σ u)).length > count →
      ((behind l order cursor (σ u)).take count).getLast? = some last → Ready l t₀ (some last.1) t' →
      ∃ pages, Walk σ (fun cursor => l.request codec ⟨count, order, cursor, none⟩) delay t'
        (some (tokenOf codec l order anchor last.1)) pages) :
    ∃ pages, Walk σ (fun cursor => l.request codec ⟨count, order, cursor, none⟩) delay t
      (cursor.map (tokenOf codec l order anchor)) pages := by
  obtain ⟨page, t', u, hrun, hle, hlt, hpage⟩ :=
    request_run order hl h hs ha htip hcount hready.stands hready.short
  cases hnext : page.nextCursor with
  | none => exact ⟨_, .last hrun hnext⟩
  | some token =>
      obtain ⟨hmore, last, hlast, rfl⟩ := hpage.more hnext
      have hlater : t < t' + delay t' := by omega
      obtain ⟨pages, hw⟩ := hrest u _ last hle hlater hmore hlast (last_ready hs hshort hready hlater.le hlast)
      exact ⟨_, .next hrun hnext hw⟩

/-- Over a table that stands still, each page leaves fewer rows behind its cursor. -/
theorem walk_still (hl : codec.Lawful) (h : Growing σ blocks) (hs : Serves l σ shown) (hshort : Short l σ)
    (ha : Anchored (blocks t₀) anchor) (htip : currentTip.run σ t₀ = .ok (some anchor, t₀ + 2))
    (hcount : 1 ≤ count ∧ count ≤ 5000) (hstill : ∀ t, T ≤ t → σ t l.part = σ T l.part) (n : Nat) :
    ∀ (cursor : Option Bytes) (t : Nat), T ≤ t → Ready l t₀ cursor t →
      (behind l order cursor (σ T)).length < n →
      ∃ pages, Walk σ (fun cursor => l.request codec ⟨count, order, cursor, none⟩) delay t
        (cursor.map (tokenOf codec l order anchor)) pages := by
  induction n with
  | zero =>
      intro cursor t _ _ hlt
      exact absurd hlt (Nat.not_lt_zero _)
  | succ n ih =>
      intro cursor t hT hready hlt
      apply walk_step hl h hs hshort ha htip hcount hready
      intro u t' last hu ht hmore hlast hready'
      have hsame : behind l order cursor (σ u) = behind l order cursor (σ T) := by
        rw [behind, behind, hstill u (hT.trans hu)]
      rw [hsame] at hmore hlast
      have hrest := after_last (f := Prod.fst) (fun a b hab hba => keyBefore_irrefl order a
        (keyBefore_trans order a b a hab hba)) (keyBefore_trans order)
        (present_sorted order l.keyPrefix (σ T l.part)) hlast
      apply ih (some last.1) t' (hT.trans ht.le) hready'
      change (after (keyBefore order) Prod.fst (some last.1) _).length < n
      rw [hrest, List.length_drop]
      change (behind l order cursor (σ T)).length - count < n
      omega

theorem walk_ends (hl : codec.Lawful) (h : Growing σ blocks) (hs : Serves l σ shown) (hshort : Short l σ)
    (ha : Anchored (blocks t₀) anchor) (htip : currentTip.run σ t₀ = .ok (some anchor, t₀ + 2))
    (hcount : 1 ≤ count ∧ count ≤ 5000) (hstill : ∀ t, T ≤ t → σ t l.part = σ T l.part) (n : Nat) :
    ∀ (cursor : Option Bytes) (t : Nat), T - t ≤ n → Ready l t₀ cursor t →
      ∃ pages, Walk σ (fun cursor => l.request codec ⟨count, order, cursor, none⟩) delay t
        (cursor.map (tokenOf codec l order anchor)) pages := by
  induction n with
  | zero =>
      intro cursor t hle hready
      exact walk_still hl h hs hshort ha htip hcount hstill _ cursor t (by omega) hready (Nat.lt_succ_self _)
  | succ n ih =>
      intro cursor t hle hready
      apply walk_step hl h hs hshort ha htip hcount hready
      intro u t' last _ ht _ _ hready'
      exact ih (some last.1) t' (by omega) hready'

theorem Serves.proceeds (hl : codec.Lawful) (h : Growing σ blocks) (hs : Serves l σ shown)
    (hshort : Short l σ) : Proceeds σ blocks (l.request codec) l.part := by
  constructor
  · intro count order delay t₀ t token hcount hne hf
    obtain ⟨anchor, ha, htip⟩ := anchored_of_tip h hne
    obtain ⟨cursor, rfl, hready⟩ := follows_ready hl h hs hshort ha htip hcount hf
    obtain ⟨page, t', -, hrun, -⟩ := request_run order hl h hs ha htip hcount hready.stands hready.short
    exact ⟨page, t', hrun⟩
  · intro count order delay t₀ T hcount hne hstill
    obtain ⟨anchor, ha, htip⟩ := anchored_of_tip h hne
    have hready : Ready l t₀ none t₀ := ⟨rfl, fun key hkey => by cases hkey⟩
    exact walk_ends hl h hs hshort ha htip hcount hstill _ none t₀ (Nat.le_refl _) hready

end Progress

end Nightfrost.KeyedListings
