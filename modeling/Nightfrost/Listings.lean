import Nightfrost.Cursors
import Nightfrost.Timeline
import Nightfrost.Pages

namespace Nightfrost.Listings

open ByteOrder Tables Partitions Domain Schema WriteBlock MovingStore Api ExceptFold EntityLog
  BlockStep BlockRun Timeline Cursors Pages

structure PageContext where
  anchor : Option TipAnchor
  position : Option Bytes

def validateAnchor (anchor : TipAnchor) : Handler Unit := do
  match ← query (Schema.block · anchor.height) with
  | none => .fail (.gone "cursor tip is no longer available")
  | some block =>
      if block.hash ≠ anchor.hash then .fail (.gone "cursor belongs to a different chain history")
      else pure ()

/-- A first page is anchored to the tip, a later one to the anchor of its cursor. -/
def pageContext (codec : CursorCodec) (pagination : Pagination) (queryScope : Bytes) :
    Handler PageContext := do
  liftExcept pagination.validate
  match pagination.cursor with
  | some cursor =>
      let decoded ← liftExcept (codec.decode cursor queryScope)
      validateAnchor decoded.anchor
      pure ⟨some decoded.anchor, some decoded.position⟩
  | none =>
      let tip ← currentTip
      pure ⟨tip, none⟩

def nextCursor (codec : CursorCodec) (queryScope : Bytes) (anchor : Option TipAnchor)
    (position : Option Bytes) (hasMore : Bool) : Option String :=
  if ¬ hasMore then none
  else
    match anchor, position with
    | some anchor, some position => some (codec.encode queryScope anchor position)
    | _, _ => none

def aboveAnchor (anchor : Option TipAnchor) (blockHeight : Nat) : Bool :=
  anchor.any (fun tip => blockHeight > tip.height)

inductive RowStep (R : Type)
  | stop
  | skip
  | row (r : R)

def pageRows {E R : Type} (rowOf : E → Handler (RowStep R)) (count : Nat) :
    List E → List R → Handler (List R)
  | [], rows => pure rows
  | entry :: entries, rows => do
      match ← rowOf entry with
      | .stop => pure rows
      | .skip => pageRows rowOf count entries rows
      | .row row =>
          let rows := rows ++ [row]
          if rows.length > count then pure rows else pageRows rowOf count entries rows

/-- An endpoint that lists rows by id: the table it scans, whose keys are a
prefix followed by the id, and what it makes of an entry. -/
structure Listing (Row : Type) where
  part : Part
  scopeParts : List Bytes
  positionError : String
  keyPrefix : Bytes
  start : Option Nat
  rowOf : Option TipAnchor → Bytes × part.Val → Handler (RowStep (Nat × Row))

variable {Row : Type}

def Listing.lower (l : Listing Row) : Bound :=
  match l.start with
  | some id => .included (l.keyPrefix ++ be 8 id)
  | none => .included l.keyPrefix

def Listing.upper (l : Listing Row) : Bound :=
  match prefixEnd l.keyPrefix with
  | some e => .excluded e
  | none => .unbounded

def Listing.cursorKey (l : Listing Row) : Option Bytes → Except ApiError (Option Bytes)
  | none => .ok none
  | some position =>
      if position.length = 8 then .ok (some (l.keyPrefix ++ position))
      else .error (.badRequest l.positionError)

def Listing.entries (l : Listing Row) (order : Order) (cursorKey : Option Bytes) (s : Store) :
    List (Bytes × l.part.Val) :=
  match order, cursorKey with
  | .asc, some key => range (s l.part) (.excluded key) l.upper
  | .asc, none => range (s l.part) l.lower l.upper
  | .desc, some key => (range (s l.part) l.lower (.excluded key)).reverse
  | .desc, none => (range (s l.part) l.lower l.upper).reverse

def Listing.page (l : Listing Row) (codec : CursorCodec) (pagination : Pagination)
    (page : PageContext) : Handler (ApiResponse (List Row)) := do
  let cursorKey ← liftExcept (l.cursorKey page.position)
  let entries ← query (l.entries pagination.order cursorKey)
  let rows ← pageRows (l.rowOf page.anchor) pagination.count entries []
  let hasMore := rows.length > pagination.count
  let rows := rows.take pagination.count
  let cursor := nextCursor codec (scope l.scopeParts pagination.order) page.anchor
    (rows.getLast?.map (fun row => be 8 row.1)) hasMore
  pure ⟨rows.map Prod.snd, page.anchor.map TipResponse.from, cursor⟩

def Listing.request (l : Listing Row) (codec : CursorCodec) (pagination : Pagination) :
    Handler (ApiResponse (List Row)) := do
  let page ← pageContext codec pagination (scope l.scopeParts pagination.order)
  l.page codec pagination page

section Orders

def before : Order → Nat → Nat → Prop
  | .asc, a, b => a < b
  | .desc, a, b => b < a

instance (order : Order) : DecidableRel (before order) := fun a b =>
  match order with
  | .asc => inferInstanceAs (Decidable (a < b))
  | .desc => inferInstanceAs (Decidable (b < a))

theorem before_asymm (order : Order) (a b : Nat) (h : before order a b) : ¬ before order b a := by
  cases order <;> exact Nat.lt_asymm h

theorem before_trans (order : Order) (a b c : Nat) (h : before order a b) (h' : before order b c) :
    before order a c := by
  cases order with
  | asc => exact Nat.lt_trans h h'
  | desc => exact Nat.lt_trans h' h

def arrange (order : Order) (rows : List (Nat × Row)) : List (Nat × Row) :=
  match order with
  | .asc => rows
  | .desc => rows.reverse

theorem arrange_sorted (order : Order) {rows : List (Nat × Row)}
    (h : rows.Pairwise (fun a b => a.1 < b.1)) :
    (arrange order rows).Pairwise (fun a b => before order a.1 b.1) := by
  cases order with
  | asc => exact h
  | desc => exact List.pairwise_reverse.mpr h

theorem mem_arrange (order : Order) {rows : List (Nat × Row)} {row : Nat × Row} :
    row ∈ arrange order rows ↔ row ∈ rows := by
  cases order with
  | asc => rfl
  | desc => exact List.mem_reverse

theorem mem_after {r : Nat → Nat → Prop} [DecidableRel r] {position : Option Nat}
    {rows : List (Nat × Row)} {row : Nat × Row} :
    row ∈ after r Prod.fst position rows ↔ row ∈ rows ∧ ∀ p, position = some p → r p row.1 := by
  cases position with
  | none => simp [after]
  | some p => simp [after, List.mem_filter]

end Orders

section Bounds

variable (l : Listing Row)

theorem under_of_lower {k : Bytes} (h : l.lower.above k = true) : (compare l.keyPrefix k).isLE := by
  rw [Listing.lower] at h
  split at h
  · exact Std.TransCmp.isLE_trans (isLE_append _ _) h
  · exact h

theorem prefix_of_bounds {k : Bytes} {upper : Bound} (hlow : (compare l.keyPrefix k).isLE)
    (hupper : upper = l.upper ∨ ∃ y, upper = .excluded (l.keyPrefix ++ y))
    (hup : upper.below k = true) : l.keyPrefix <+: k := by
  by_contra hnot
  obtain ⟨hall, e, he, hge⟩ := beyond_unprefixed hlow hnot
  rcases hupper with rfl | ⟨y, rfl⟩
  · rw [Listing.upper, he] at hup
    exact hge (by simpa [Bound.below] using hup)
  · rw [Bound.below, hall y] at hup
    cases hup

theorem lower_above {id : Nat} (hstart : ∀ i, l.start = some i → i < 2 ^ 64) (hid : id < 2 ^ 64) :
    l.lower.above (l.keyPrefix ++ be 8 id) = true ↔ l.start.getD 0 ≤ id := by
  rw [Listing.lower]
  cases he : l.start with
  | none => exact iff_of_true (isLE_append _ _) (Nat.zero_le _)
  | some i =>
      show (compare (l.keyPrefix ++ be 8 i) _).isLE = true ↔ _
      rw [compare_append_left, compare_be (hstart i he) hid]
      exact Nat.isLE_compare

theorem upper_below (id : Nat) : l.upper.below (l.keyPrefix ++ be 8 id) = true := by
  rw [Listing.upper]
  cases he : prefixEnd l.keyPrefix with
  | none => rfl
  | some e =>
      have hlt := below_prefixEnd (List.prefix_append l.keyPrefix (be 8 id)) he
      simpa [Bound.below] using hlt

theorem excluded_above (p : Bytes) {i id : Nat} (hi : i < 2 ^ 64) (hid : id < 2 ^ 64) :
    (Bound.excluded (p ++ be 8 i)).above (p ++ be 8 id) = true ↔ i < id := by
  rw [Bound.above, compare_append_left, compare_be hi hid, beq_iff_eq, Nat.compare_eq_lt]

theorem excluded_below (p : Bytes) {i id : Nat} (hi : i < 2 ^ 64) (hid : id < 2 ^ 64) :
    (Bound.excluded (p ++ be 8 i)).below (p ++ be 8 id) = true ↔ id < i := by
  rw [Bound.below, compare_append_left, compare_be hid hi, beq_iff_eq, Nat.compare_eq_lt]

theorem mem_entries {order : Order} {cursorKey : Option Bytes} {s : Store} {e : Bytes × l.part.Val} :
    e ∈ l.entries order cursorKey s ↔ (s l.part)[e.1]? = some e.2 ∧
      (match order, cursorKey with
        | .asc, some key => (Bound.excluded key).above e.1 = true ∧ l.upper.below e.1 = true
        | .desc, some key => l.lower.above e.1 = true ∧ (Bound.excluded key).below e.1 = true
        | _, none => l.lower.above e.1 = true ∧ l.upper.below e.1 = true) := by
  cases order <;> cases cursorKey <;> simp only [Listing.entries, List.mem_reverse, mem_range]

theorem entries_sorted (order : Order) (cursorKey : Option Bytes) (s : Store) :
    (l.entries order cursorKey s).Pairwise (fun a b =>
      match order with
      | .asc => compare a.1 b.1 = .lt
      | .desc => compare b.1 a.1 = .lt) := by
  cases order with
  | asc => cases cursorKey <;> exact range_sorted _ _ _
  | desc => cases cursorKey <;> exact List.pairwise_reverse.mpr (range_sorted _ _ _)

theorem entry_under {order : Order} {cursor : Option Nat} {s : Store} {e : Bytes × l.part.Val}
    (h : e ∈ l.entries order (cursor.map (fun id => l.keyPrefix ++ be 8 id)) s) :
    l.keyPrefix <+: e.1 := by
  have hbounds := ((mem_entries l).mp h).2
  cases order with
  | asc =>
      cases cursor with
      | none => exact prefix_of_bounds l (under_of_lower l hbounds.1) (.inl rfl) hbounds.2
      | some id =>
          refine prefix_of_bounds l ?_ (.inl rfl) hbounds.2
          have hlt : compare (l.keyPrefix ++ be 8 id) e.1 = .lt := by
            simpa [Bound.above] using hbounds.1
          exact Std.TransCmp.isLE_trans (isLE_append _ _) (by rw [hlt]; rfl)
  | desc =>
      cases cursor with
      | none => exact prefix_of_bounds l (under_of_lower l hbounds.1) (.inl rfl) hbounds.2
      | some id => exact prefix_of_bounds l (under_of_lower l hbounds.1) (.inr ⟨_, rfl⟩) hbounds.2

theorem mem_entries_id {order : Order} {cursor : Option Nat} {s : Store} {id : Nat}
    {v : l.part.Val} (hstart : ∀ i, l.start = some i → i < 2 ^ 64)
    (hcursor : ∀ i, cursor = some i → i < 2 ^ 64 ∧ l.start.getD 0 ≤ i) (hid : id < 2 ^ 64) :
    (l.keyPrefix ++ be 8 id, v) ∈ l.entries order (cursor.map (fun i => l.keyPrefix ++ be 8 i)) s ↔
      (s l.part)[l.keyPrefix ++ be 8 id]? = some v ∧ l.start.getD 0 ≤ id ∧
        ∀ i, cursor = some i → before order i id := by
  rw [mem_entries]
  apply and_congr_right
  intro _
  cases cursor with
  | none =>
      have hiff : (l.lower.above (l.keyPrefix ++ be 8 id) = true ∧
          l.upper.below (l.keyPrefix ++ be 8 id) = true) ↔ l.start.getD 0 ≤ id := by
        rw [lower_above l hstart hid, and_iff_left (upper_below l id)]
      cases order <;>
      · refine hiff.trans ⟨fun h => ⟨h, fun i hi => ?_⟩, fun h => h.1⟩
        cases hi
  | some i =>
      obtain ⟨hi, hle⟩ := hcursor i rfl
      cases order with
      | asc =>
          show ((Bound.excluded (l.keyPrefix ++ be 8 i)).above _ = true ∧ _) ↔ _
          rw [excluded_above _ hi hid, and_iff_left (upper_below l id)]
          constructor
          · intro hlt
            refine ⟨by omega, fun j hj => ?_⟩
            obtain rfl := Option.some.inj hj
            exact hlt
          · rintro ⟨-, hall⟩
            exact hall i rfl
      | desc =>
          show (l.lower.above _ = true ∧ (Bound.excluded (l.keyPrefix ++ be 8 i)).below _ = true) ↔ _
          rw [lower_above l hstart hid, excluded_below _ hi hid]
          constructor
          · rintro ⟨hs, hlt⟩
            refine ⟨hs, fun j hj => ?_⟩
            obtain rfl := Option.some.inj hj
            exact hlt
          · rintro ⟨hs, hall⟩
            exact ⟨hs, hall i rfl⟩

end Bounds

section Serves

variable {σ : Nat → Store} {blocks : Nat → List DerivedBlock} {l : Listing Row}
  {seen : List DerivedBlock → Nat → Bytes × l.part.Val → Option (Nat × Row)}
  {shown : List DerivedBlock → Nat → List (Nat × Row)}

def stepOf {R : Type} (row : Option R) : RowStep R :=
  match row with
  | some row => .row row
  | none => .skip

/-- A listing serves rows of the log: `seen` is what it makes of an entry of the
table under its prefix, and `shown` are the rows up to a height, in id order. -/
structure Serves (l : Listing Row) (σ : Nat → Store) (blocks : Nat → List DerivedBlock)
    (seen : List DerivedBlock → Nat → Bytes × l.part.Val → Option (Nat × Row))
    (shown : List DerivedBlock → Nat → List (Nat × Row)) : Prop where
  start_lt : ∀ i, l.start = some i → i < 2 ^ 64
  sorted : ∀ bs height, (shown bs height).Pairwise (fun a b => a.1 < b.1)
  stable : ∀ t t' height, t ≤ t' → height < (blocks t).length →
    shown (blocks t') height = shown (blocks t) height
  key : ∀ t height e row, (σ t l.part)[e.1]? = some e.2 → l.keyPrefix <+: e.1 →
    seen (blocks t) height e = some row → e.1 = l.keyPrefix ++ be 8 row.1 ∧ row.1 < 2 ^ 64
  mem_shown : ∀ t height row, row ∈ shown (blocks t) height ↔ l.start.getD 0 ≤ row.1 ∧
    ∃ e : Bytes × l.part.Val, (σ t l.part)[e.1]? = some e.2 ∧ l.keyPrefix <+: e.1 ∧
      seen (blocks t) height e = some row
  rowOf : ∀ t t' anchor e, t ≤ t' → (σ t l.part)[e.1]? = some e.2 → l.keyPrefix <+: e.1 →
    ∃ t'', (l.rowOf (some anchor) e).run σ t' =
      .ok (stepOf (seen (blocks t) anchor.height e), t'')

theorem Serves.entries (h : Serves l σ blocks seen shown) (t height : Nat) (order : Order)
    {cursor : Option Nat} (hcursor : ∀ i, cursor = some i → i < 2 ^ 64 ∧ l.start.getD 0 ≤ i) :
    (l.entries order (cursor.map (fun i => l.keyPrefix ++ be 8 i)) (σ t)).filterMap
        (seen (blocks t) height) =
      after (before order) Prod.fst cursor (arrange order (shown (blocks t) height)) := by
  refine eq_of_sorted (r := fun a b => before order a.1 b.1) ?_ ?_ ?_ ?_ ?_
  · intro a ha
    exact before_asymm order _ _ ha ha
  · intro a b c
    exact before_trans order _ _ _
  · rw [List.pairwise_filterMap]
    refine (entries_sorted l order _ (σ t)).imp_of_mem ?_
    intro a b ha hb hab x hx y hy
    obtain ⟨hkx, hltx⟩ := h.key t height a x ((mem_entries l).mp ha).1 (entry_under l ha) hx
    obtain ⟨hky, hlty⟩ := h.key t height b y ((mem_entries l).mp hb).1 (entry_under l hb) hy
    rw [hkx, hky] at hab
    cases order with
    | asc =>
        change compare (l.keyPrefix ++ be 8 x.1) (l.keyPrefix ++ be 8 y.1) = .lt at hab
        rw [compare_append_left, compare_be hltx hlty] at hab
        exact Nat.compare_eq_lt.mp hab
    | desc =>
        change compare (l.keyPrefix ++ be 8 y.1) (l.keyPrefix ++ be 8 x.1) = .lt at hab
        rw [compare_append_left, compare_be hlty hltx] at hab
        exact Nat.compare_eq_lt.mp hab
  · have hsorted := arrange_sorted order (h.sorted (blocks t) height)
    cases cursor with
    | none => exact hsorted
    | some i => exact hsorted.filter _
  · intro row
    rw [List.mem_filterMap, mem_after, mem_arrange, h.mem_shown t]
    constructor
    · rintro ⟨e, he, hrow⟩
      have hp := entry_under l he
      have hget := ((mem_entries l).mp he).1
      obtain ⟨hk, hlt⟩ := h.key t height e row hget hp hrow
      obtain ⟨k, v⟩ := e
      dsimp only at hk hget
      subst hk
      obtain ⟨-, hstart, hafter⟩ := (mem_entries_id l h.start_lt hcursor hlt).mp he
      exact ⟨⟨hstart, _, hget, hp, hrow⟩, hafter⟩
    · rintro ⟨⟨hstart, e, hget, hp, hrow⟩, hafter⟩
      obtain ⟨hk, hlt⟩ := h.key t height e row hget hp hrow
      obtain ⟨k, v⟩ := e
      dsimp only at hk hget
      subst hk
      exact ⟨_, (mem_entries_id l h.start_lt hcursor hlt).mpr ⟨hget, hstart, hafter⟩, hrow⟩

theorem pageRows_run {E R : Type} {rowOf : E → Handler (RowStep R)} {rows : E → Option R}
    {count t₀ : Nat} {entries : List E}
    (hrow : ∀ e ∈ entries, ∀ t, t₀ ≤ t → ∃ t', (rowOf e).run σ t = .ok (stepOf (rows e), t'))
    {t : Nat} (hle : t₀ ≤ t)
    {done : List R} (hroom : done.length ≤ count) :
    ∃ t', (pageRows rowOf count entries done).run σ t =
      .ok (done ++ (entries.filterMap rows).take (count + 1 - done.length), t') := by
  induction entries generalizing t done with
  | nil => exact ⟨t, by rw [List.filterMap_nil, List.take_nil, List.append_nil]; rfl⟩
  | cons e entries ih =>
      obtain ⟨t₁, hrun⟩ := hrow e List.mem_cons_self t hle
      have hle₁ := run_le hrun
      have hlater : ∀ e' ∈ entries, ∀ t, t₀ ≤ t → ∃ t', (rowOf e').run σ t =
          .ok (stepOf (rows e'), t') := fun e' he' => hrow e' (List.mem_cons_of_mem _ he')
      rw [pageRows, run_bind, hrun]
      cases hr : rows e with
      | none =>
          rw [List.filterMap_cons_none hr]
          exact ih hlater (by omega) hroom
      | some row =>
          rw [List.filterMap_cons_some hr]
          have hpage : count + 1 - done.length = (count + 1 - (done ++ [row]).length) + 1 := by
            rw [List.length_append, List.length_singleton]
            omega
          change ∃ t', (if (done ++ [row]).length > count then pure (done ++ [row]) else
            pageRows rowOf count entries (done ++ [row]) : Handler _).run σ t₁ = _
          split
          · rename_i hfull
            refine ⟨t₁, ?_⟩
            have hzero : count + 1 - (done ++ [row]).length = 0 := by omega
            rw [hpage, hzero, List.take_succ_cons, List.take_zero]
            rfl
          · rename_i hmore
            have hroom' : (done ++ [row]).length ≤ count := by omega
            obtain ⟨t', hrest⟩ := ih hlater (show t₀ ≤ t₁ by omega) hroom'
            refine ⟨t', ?_⟩
            rw [hrest, hpage, List.take_succ_cons, List.append_assoc]
            rfl

def pageOf (codec : CursorCodec) (l : Listing Row) (order : Order) (count : Nat) (anchor : TipAnchor)
    (rest : List (Nat × Row)) : ApiResponse (List Row) :=
  ⟨(rest.take count).map Prod.snd, some (TipResponse.from anchor),
    nextCursor codec (scope l.scopeParts order) (some anchor)
      ((rest.take count).getLast?.map (fun row => be 8 row.1)) (decide (rest.length > count))⟩

def behind (order : Order) (cursor : Option Nat) (rows : List (Nat × Row)) : List (Nat × Row) :=
  after (before order) Prod.fst cursor (arrange order rows)

section Requests

variable {codec : CursorCodec} {t₀ : Nat} {anchor : TipAnchor} {order : Order} {count : Nat}

structure Anchored (blocks : List DerivedBlock) (anchor : TipAnchor) : Prop where
  height : anchor.height + 1 = blocks.length
  hash : ∃ record, (logOf blocks).blocks[anchor.height]? = some record ∧ record.hash = anchor.hash

theorem page_run (hs : Serves l σ blocks seen shown) (ha : Anchored (blocks t₀) anchor) {t : Nat}
    (hle : t₀ ≤ t) (cursor : Option Nat) {pagination : Pagination}
    (hcursor : ∀ i, cursor = some i → i < 2 ^ 64 ∧ l.start.getD 0 ≤ i) :
    ∃ t', (l.page codec pagination ⟨some anchor, cursor.map (be 8)⟩).run σ t =
      .ok (pageOf codec l pagination.order pagination.count anchor
        (behind pagination.order cursor (shown (blocks t₀) anchor.height)), t') := by
  have hkey : l.cursorKey (cursor.map (be 8)) = .ok (cursor.map (fun i => l.keyPrefix ++ be 8 i)) := by
    cases cursor with
    | none => rfl
    | some i =>
        rw [Option.map_some, Listing.cursorKey, if_pos (be_length 8 i)]
        rfl
  have hheight := ha.height
  have hrows := hs.entries t anchor.height pagination.order hcursor
  rw [hs.stable t₀ t anchor.height hle (by omega)] at hrows
  have hrow : ∀ e ∈ l.entries pagination.order (cursor.map (fun i => l.keyPrefix ++ be 8 i)) (σ t),
      ∀ u, t ≤ u → ∃ u', (l.rowOf (some anchor) e).run σ u =
        .ok (stepOf (seen (blocks t) anchor.height e), u') :=
    fun e he u hu => hs.rowOf t u anchor e hu ((mem_entries l).mp he).1 (entry_under l he)
  have hroom : ([] : List (Nat × Row)).length ≤ pagination.count := Nat.zero_le _
  obtain ⟨t', hloop⟩ := pageRows_run hrow (Nat.le_succ t) hroom
  rw [hrows, List.nil_append, List.length_nil, Nat.sub_zero] at hloop
  refine ⟨t', ?_⟩
  rw [Listing.page, hkey]
  change (query _ >>= _ : Handler _).run σ t = _
  rw [run_bind, run_query]
  change (pageRows (l.rowOf (some anchor)) pagination.count _ [] >>= _ : Handler _).run σ (t + 1) = _
  rw [run_bind, hloop]
  have hmore : ((behind pagination.order cursor (shown (blocks t₀) anchor.height)).take
      (pagination.count + 1)).length > pagination.count ↔
      (behind pagination.order cursor (shown (blocks t₀) anchor.height)).length > pagination.count := by
    rw [List.length_take]
    omega
  have htake : ((behind pagination.order cursor (shown (blocks t₀) anchor.height)).take
      (pagination.count + 1)).take pagination.count =
      (behind pagination.order cursor (shown (blocks t₀) anchor.height)).take pagination.count := by
    rw [List.take_take, Nat.min_eq_left (Nat.le_succ _)]
  change Except.ok (_, t') = _
  rw [pageOf, ← htake, ← decide_eq_decide.mpr hmore]
  rfl

theorem anchored_of_tip (h : Growing σ blocks) (hne : blocks t₀ ≠ []) :
    ∃ anchor, Anchored (blocks t₀) anchor ∧ currentTip.run σ t₀ = .ok (some anchor, t₀ + 2) := by
  rcases h.currentTip t₀ with ⟨hnil, -⟩ | ⟨record, -, hrecord, htip⟩
  · exact absurd hnil hne
  · have hpos := List.length_pos_of_ne_nil hne
    exact ⟨_, ⟨by simp only; omega, record, hrecord, rfl⟩, htip⟩

theorem validateAnchor_run (h : Growing σ blocks) (ha : Anchored (blocks t₀) anchor) {t : Nat}
    (hle : t₀ ≤ t) : (validateAnchor anchor).run σ t = .ok ((), t + 1) := by
  have hheight := ha.height
  obtain ⟨record, hrecord, hhash⟩ := ha.hash
  obtain ⟨record', hrecord', hblock⟩ := h.block hle (show anchor.height < (blocks t₀).length by omega)
  obtain rfl := Option.some.inj (hrecord.symm.trans hrecord')
  rw [validateAnchor, run_bind, run_query]
  change (match Schema.block (σ t) anchor.height with
    | none => _
    | some block => _ : Handler _).run σ (t + 1) = _
  rw [hblock]
  change (if record.hash ≠ anchor.hash then _ else _ : Handler _).run σ (t + 1) = _
  rw [if_neg (not_not.mpr hhash)]
  rfl

theorem anchor_height_lt (h : Growing σ blocks) (ha : Anchored (blocks t₀) anchor) :
    anchor.height < 2 ^ 64 := by
  obtain ⟨ids, hrun⟩ := h.run t₀
  have hbound := (hrun.cursor (h.consecutive t₀)).records.bound
  have hheight := ha.height
  rw [logOf_blocks_length] at hbound
  omega

def tokenOf (codec : CursorCodec) (l : Listing Row) (order : Order) (anchor : TipAnchor) (id : Nat) :
    String :=
  codec.encode (scope l.scopeParts order) anchor (be 8 id)

theorem pageContext_first (codec : CursorCodec) (order : Order) (queryScope : Bytes)
    (htip : currentTip.run σ t₀ = .ok (some anchor, t₀ + 2)) (hcount : 1 ≤ count ∧ count ≤ 5000) :
    (pageContext codec ⟨count, order, none, none⟩ queryScope).run σ t₀ =
      .ok (⟨some anchor, none⟩, t₀ + 2) := by
  have hvalid : (⟨count, order, none, none⟩ : Pagination).validate = .ok () :=
    if_neg (not_not.mpr hcount)
  rw [pageContext, hvalid]
  change (currentTip >>= _ : Handler _).run σ t₀ = _
  rw [run_bind, htip]
  rfl

theorem pageContext_next (order : Order) (queryScope : Bytes) (hl : codec.Lawful)
    (h : Growing σ blocks) (ha : Anchored (blocks t₀) anchor) {t : Nat} (hle : t₀ ≤ t)
    (hcount : 1 ≤ count ∧ count ≤ 5000) {position : Bytes} (hshort : position.length ≤ 690) :
    (pageContext codec ⟨count, order, some (codec.encode queryScope anchor position), none⟩
      queryScope).run σ t = .ok (⟨some anchor, some position⟩, t + 1) := by
  have hsize : ¬ (codec.encode queryScope anchor position).utf8ByteSize > maxCursorLen :=
    Nat.not_lt.mpr ((encode_size_iff hl _ anchor position).mpr hshort)
  have hvalid : (⟨count, order, some (codec.encode queryScope anchor position), none⟩ :
      Pagination).validate = .ok () := by
    rw [Pagination.validate, if_neg (not_not.mpr hcount)]
    simpa using hsize
  have hdecode : codec.decode (codec.encode queryScope anchor position) queryScope =
      .ok ⟨anchor, position⟩ :=
    decode_encode hl.decode_encode (anchor_height_lt h ha) (by omega)
  rw [pageContext, hvalid]
  change (liftExcept (codec.decode (codec.encode queryScope anchor position) queryScope) >>= _ :
    Handler _).run σ t = _
  rw [hdecode]
  change (validateAnchor anchor >>= _ : Handler _).run σ t = _
  rw [run_bind, validateAnchor_run h ha hle]
  rfl

theorem request_first (codec : CursorCodec) (order : Order)
    (hs : Serves l σ blocks seen shown) (ha : Anchored (blocks t₀) anchor)
    (htip : currentTip.run σ t₀ = .ok (some anchor, t₀ + 2)) (hcount : 1 ≤ count ∧ count ≤ 5000) :
    ∃ t', (l.request codec ⟨count, order, none, none⟩).run σ t₀ =
      .ok (pageOf codec l order count anchor
        (behind order none (shown (blocks t₀) anchor.height)), t') := by
  rw [Listing.request, run_bind, pageContext_first codec order _ htip hcount]
  exact page_run hs ha (by omega) none (fun i hi => by cases hi)

theorem request_next (order : Order) (hl : codec.Lawful) (h : Growing σ blocks) (hs : Serves l σ blocks seen shown)
    (ha : Anchored (blocks t₀) anchor) {t id : Nat} (hle : t₀ ≤ t)
    (hcount : 1 ≤ count ∧ count ≤ 5000) (hid : id < 2 ^ 64 ∧ l.start.getD 0 ≤ id) :
    ∃ t', (l.request codec ⟨count, order, some (tokenOf codec l order anchor id), none⟩).run σ t =
      .ok (pageOf codec l order count anchor
        (behind order (some id) (shown (blocks t₀) anchor.height)), t') := by
  have hshort : (be 8 id).length ≤ 690 := by rw [be_length]; decide
  rw [Listing.request, tokenOf, run_bind, pageContext_next order _ hl h ha hle hcount hshort]
  refine page_run hs ha (by omega) (some id) (fun i hi => ?_)
  obtain rfl := Option.some.inj hi
  exact hid

end Requests

section Walks

/-- A client that follows the cursors of an endpoint until there is none, and
waits as it likes before each request. -/
inductive Walk (σ : Nat → Store) (endpoint : Option String → Handler (ApiResponse (List Row)))
    (delay : Nat → Nat) : Nat → Option String → List (ApiResponse (List Row)) → Prop
  | last {t t' : Nat} {cursor : Option String} {page : ApiResponse (List Row)}
      (hrun : (endpoint cursor).run σ t = .ok (page, t')) (hlast : page.nextCursor = none) :
      Walk σ endpoint delay t cursor [page]
  | next {t t' : Nat} {cursor : Option String} {page : ApiResponse (List Row)} {token : String}
      {pages : List (ApiResponse (List Row))} (hrun : (endpoint cursor).run σ t = .ok (page, t'))
      (hnext : page.nextCursor = some token)
      (h : Walk σ endpoint delay (t' + delay t') (some token) pages) :
      Walk σ endpoint delay t cursor (page :: pages)

/-- From every moment with a tip, the pages of a walk hold exactly the rows of
the blocks up to the anchor of the first page. -/
def Exact (σ : Nat → Store) (blocks : Nat → List DerivedBlock)
    (endpoint : Pagination → Handler (ApiResponse (List Row)))
    (shown : List DerivedBlock → Nat → List (Nat × Row)) : Prop :=
  ∀ (count : Nat) (order : Order) (delay : Nat → Nat) (t₀ : Nat), 1 ≤ count ∧ count ≤ 5000 →
    blocks t₀ ≠ [] → ∃ anchor pages, Anchored (blocks t₀) anchor ∧
      Walk σ (fun cursor => endpoint ⟨count, order, cursor, none⟩) delay t₀ none pages ∧
      (∀ pages', Walk σ (fun cursor => endpoint ⟨count, order, cursor, none⟩) delay t₀ none pages' →
        pages' = pages) ∧
      (∀ page ∈ pages, page.results.length ≤ count ∧ page.tip = some (TipResponse.from anchor)) ∧
      ∀ t, t₀ ≤ t → pages.flatMap ApiResponse.results =
        (arrange order (shown (blocks t) anchor.height)).map Prod.snd

variable {codec : CursorCodec} {t₀ : Nat} {anchor : TipAnchor} {order : Order} {count : Nat}
  {delay : Nat → Nat}

theorem shown_id (hs : Serves l σ blocks seen shown) {height : Nat} {row : Nat × Row}
    (hrow : row ∈ shown (blocks t₀) height) : row.1 < 2 ^ 64 ∧ l.start.getD 0 ≤ row.1 := by
  obtain ⟨hstart, e, hget, hp, hseen⟩ := (hs.mem_shown t₀ height row).mp hrow
  exact ⟨(hs.key t₀ height e row hget hp hseen).2, hstart⟩

theorem pageOf_last (codec : CursorCodec) (l : Listing Row) (order : Order) (anchor : TipAnchor)
    {rest : List (Nat × Row)} (hlast : ¬ rest.length > count) :
    (pageOf codec l order count anchor rest).nextCursor = none ∧
      (pageOf codec l order count anchor rest).results = rest.map Prod.snd := by
  constructor
  · rw [pageOf, decide_eq_false hlast]
    rfl
  · rw [pageOf, List.take_of_length_le (Nat.le_of_not_lt hlast)]

theorem pageOf_next (codec : CursorCodec) (l : Listing Row) (order : Order) (anchor : TipAnchor)
    {rest : List (Nat × Row)} (hcount : 1 ≤ count) (hmore : rest.length > count) :
    ∃ last, (rest.take count).getLast? = some last ∧
      (pageOf codec l order count anchor rest).nextCursor =
        some (tokenOf codec l order anchor last.1) := by
  have hne : rest.take count ≠ [] := by
    intro hnil
    have hlen := congrArg List.length hnil
    rw [List.length_take, List.length_nil] at hlen
    omega
  refine ⟨_, List.getLast?_eq_some_getLast hne, ?_⟩
  rw [pageOf, decide_eq_true hmore, List.getLast?_eq_some_getLast hne]
  rfl

theorem walk_from (hl : codec.Lawful) (h : Growing σ blocks) (hs : Serves l σ blocks seen shown)
    (ha : Anchored (blocks t₀) anchor) (hcount : 1 ≤ count ∧ count ≤ 5000) (n : Nat) :
    ∀ (cursor : Option Nat) (t t' : Nat),
      (behind order cursor (shown (blocks t₀) anchor.height)).length < n → t₀ ≤ t' →
      (l.request codec ⟨count, order, cursor.map (tokenOf codec l order anchor), none⟩).run σ t =
        .ok (pageOf codec l order count anchor
          (behind order cursor (shown (blocks t₀) anchor.height)), t') →
      ∃ pages, Walk σ (fun cursor => l.request codec ⟨count, order, cursor, none⟩) delay t
          (cursor.map (tokenOf codec l order anchor)) pages ∧
        (∀ pages', Walk σ (fun cursor => l.request codec ⟨count, order, cursor, none⟩) delay t
          (cursor.map (tokenOf codec l order anchor)) pages' → pages' = pages) ∧
        (∀ page ∈ pages, page.results.length ≤ count ∧ page.tip = some (TipResponse.from anchor)) ∧
        pages.flatMap ApiResponse.results =
          (behind order cursor (shown (blocks t₀) anchor.height)).map Prod.snd := by
  induction n with
  | zero => intro cursor t t' hlen; omega
  | succ n ih =>
      intro cursor t t' hlen hle hrun
      have hpage : (pageOf codec l order count anchor
          (behind order cursor (shown (blocks t₀) anchor.height))).results.length ≤ count := by
        rw [pageOf, List.length_map, List.length_take]
        exact Nat.min_le_left _ _
      by_cases hmore : (behind order cursor (shown (blocks t₀) anchor.height)).length > count
      · obtain ⟨last, hlast, hnext⟩ := pageOf_next codec l order anchor hcount.1 hmore
        have hrest := after_last (before_asymm order) (before_trans order)
          (arrange_sorted order (hs.sorted (blocks t₀) anchor.height)) hlast
        change behind order (some last.1) (shown (blocks t₀) anchor.height) = _ at hrest
        have hmem : last ∈ shown (blocks t₀) anchor.height :=
          (mem_arrange order).mp (mem_after.mp (List.mem_of_mem_take (List.mem_of_getLast? hlast))).1
        obtain ⟨t'', hrun'⟩ := request_next order hl h hs ha
          (show t₀ ≤ t' + delay t' by omega) hcount (shown_id hs hmem)
        have hshort : (behind order (some last.1) (shown (blocks t₀) anchor.height)).length < n := by
          rw [hrest, List.length_drop]
          change (behind order cursor (shown (blocks t₀) anchor.height)).length - count < n
          omega
        obtain ⟨pages, hw, hunique, hall, hrows⟩ := ih (some last.1) (t' + delay t') t'' hshort
          (by have := run_le hrun'; omega) hrun'
        refine ⟨_ :: pages, .next hrun hnext hw, ?_, ?_, ?_⟩
        · intro pages' hw'
          cases hw' with
          | last hrun'' hnone =>
              obtain ⟨rfl, rfl⟩ := Prod.mk.inj (Except.ok.inj (hrun''.symm.trans hrun))
              rw [hnext] at hnone
              cases hnone
          | next hrun'' hnext' hw'' =>
              obtain ⟨rfl, rfl⟩ := Prod.mk.inj (Except.ok.inj (hrun''.symm.trans hrun))
              obtain rfl := Option.some.inj (hnext.symm.trans hnext')
              rw [hunique _ hw'']
        · intro page hp
          rcases List.mem_cons.mp hp with rfl | hp
          · exact ⟨hpage, rfl⟩
          · exact hall page hp
        · rw [List.flatMap_cons, hrows, hrest]
          show ((behind order cursor _).take count).map Prod.snd ++ _ = _
          rw [← List.map_append]
          exact congrArg _ (List.take_append_drop count _)
      · obtain ⟨hnone, hresults⟩ := pageOf_last codec l order anchor hmore
        refine ⟨[_], .last hrun hnone, ?_, ?_, ?_⟩
        · intro pages' hw'
          cases hw' with
          | last hrun'' _ =>
              obtain ⟨rfl, rfl⟩ := Prod.mk.inj (Except.ok.inj (hrun''.symm.trans hrun))
              rfl
          | next hrun'' hnext' _ =>
              obtain ⟨rfl, rfl⟩ := Prod.mk.inj (Except.ok.inj (hrun''.symm.trans hrun))
              rw [hnone] at hnext'
              cases hnext'
        · intro page hp
          rw [List.mem_singleton.mp hp]
          exact ⟨hpage, rfl⟩
        · rw [List.flatMap_singleton, hresults]

theorem Serves.exact (hl : codec.Lawful) (h : Growing σ blocks) (hs : Serves l σ blocks seen shown) :
    Exact σ blocks (l.request codec) shown := by
  intro count order delay t₀ hcount hne
  obtain ⟨anchor, ha, htip⟩ := anchored_of_tip h hne
  obtain ⟨t', hrun⟩ := request_first codec order hs ha htip hcount
  obtain ⟨pages, hw, hunique, hall, hrows⟩ := walk_from hl h hs ha hcount _ none t₀ t'
    (Nat.lt_succ_self _) (run_le hrun) hrun
  refine ⟨anchor, pages, ha, hw, hunique, hall, fun t hle => ?_⟩
  have hheight := ha.height
  rw [hrows, hs.stable t₀ t anchor.height hle (by omega)]
  rfl

end Walks

end Serves

end Nightfrost.Listings
