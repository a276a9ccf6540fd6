import Mathlib

namespace Nightfrost.Tiling

structure Span where
  id : Nat
  lo : Nat
  hi : Nat

inductive Tile
  | gap (lo hi : Nat)
  | entry (span : Span)

def Tile.lo : Tile → Nat
  | .gap lo _ => lo
  | .entry span => span.lo

def Tile.hi : Tile → Nat
  | .gap _ hi => hi
  | .entry span => span.hi

def Tile.entryId : Tile → Option Nat
  | .gap _ _ => none
  | .entry span => some span.id

/-- A walk over spans from a boundary on: a span at or below the boundary is
passed over, one that the boundary cuts is refused, and the gap before any
other becomes a tile of its own. -/
def walk : Nat → List Span → Option (List Tile × Nat)
  | boundary, [] => some ([], boundary)
  | boundary, span :: spans =>
      if span.hi ≤ boundary then walk boundary spans
      else if span.lo < boundary then none
      else (walk span.hi spans).map (fun r =>
        ((if boundary < span.lo then [Tile.gap boundary span.lo] else []) ++ .entry span :: r.1, r.2))

def close (highest : Nat) (r : List Tile × Nat) : List Tile × Nat :=
  if r.2 < highest then (r.1 ++ [.gap r.2 highest], highest) else r

structure Ordered (spans : List Span) : Prop where
  ids : spans.Pairwise (fun a b => a.id < b.id)
  ranges : spans.Pairwise (fun a b => a.hi ≤ b.lo)
  proper : ∀ span ∈ spans, span.lo ≤ span.hi

def Cuts (boundary : Nat) (span : Span) : Prop := span.lo < boundary ∧ boundary < span.hi

theorem Ordered.tail {span : Span} {spans : List Span} (h : Ordered (span :: spans)) : Ordered spans :=
  ⟨h.ids.of_cons, h.ranges.of_cons, fun s hs => h.proper s (List.mem_cons_of_mem _ hs)⟩

theorem Ordered.head {span : Span} {spans : List Span} (h : Ordered (span :: spans)) :
    ∀ s ∈ spans, span.hi ≤ s.lo :=
  (List.pairwise_cons.mp h.ranges).1

theorem Ordered.not_cuts {span : Span} {spans : List Span} (h : Ordered (span :: spans)) :
    ∀ s ∈ spans, ¬ Cuts span.hi s :=
  fun s hs hc => Nat.not_lt.mpr (h.head s hs) hc.1

theorem walk_some {spans : List Span} {boundary : Nat} (h : Ordered spans)
    (hb : ∀ s ∈ spans, ¬ Cuts boundary s) : ∃ r, walk boundary spans = some r := by
  induction spans generalizing boundary with
  | nil => exact ⟨_, rfl⟩
  | cons span spans ih =>
      rw [walk]
      split
      · exact ih h.tail (fun s hs => hb s (List.mem_cons_of_mem _ hs))
      · rename_i hhi
        have hlo : ¬ span.lo < boundary :=
          fun hlt => hb span List.mem_cons_self ⟨hlt, Nat.lt_of_not_le hhi⟩
        obtain ⟨r, hr⟩ := ih h.tail h.not_cuts
        rw [if_neg hlo, hr]
        exact ⟨_, rfl⟩

/-- Tiles that follow each other without gap or overlap. -/
inductive Covers : Nat → List Tile → Nat → Prop
  | nil (a : Nat) : Covers a [] a
  | cons {a b : Nat} (tile : Tile) (tiles : List Tile) (hlo : tile.lo = a) (hle : a ≤ tile.hi)
      (h : Covers tile.hi tiles b) : Covers a (tile :: tiles) b

theorem Covers.append {a b c : Nat} {xs ys : List Tile} (h : Covers a xs b) (h' : Covers b ys c) :
    Covers a (xs ++ ys) c := by
  induction h with
  | nil a => exact h'
  | cons tile tiles hlo hle h ih => exact .cons tile _ hlo hle (ih h')

theorem Covers.le {a b : Nat} {tiles : List Tile} (h : Covers a tiles b) : a ≤ b := by
  induction h with
  | nil a => exact Nat.le_refl a
  | cons tile tiles hlo hle h ih => exact Nat.le_trans hle ih

theorem Covers.mem_le {a b : Nat} {tiles : List Tile} (h : Covers a tiles b) {tile : Tile}
    (ht : tile ∈ tiles) : tile.hi ≤ b := by
  induction h with
  | nil a => cases ht
  | cons first tiles hlo hle h ih =>
      rcases List.mem_cons.mp ht with rfl | ht
      · exact h.le
      · exact ih ht

theorem Covers.nonempty {a b : Nat} {tiles : List Tile} (h : Covers a tiles b) :
    Covers a (tiles.filter (fun t => t.lo < t.hi)) b := by
  induction h with
  | nil a => exact .nil a
  | @cons a b tile tiles hlo hle h ih =>
      by_cases hlt : tile.lo < tile.hi
      · rw [List.filter_cons_of_pos (by simpa using hlt)]
        exact .cons tile _ hlo hle ih
      · rw [List.filter_cons_of_neg (by simpa using hlt)]
        have he : tile.hi = a := by omega
        rwa [he] at ih

theorem covers_gap {a b : Nat} (h : a ≤ b) :
    Covers a (if a < b then [Tile.gap a b] else []) b := by
  split
  · exact .cons (.gap a b) [] rfl h (.nil b)
  · have he : a = b := by omega
    rw [he]
    exact .nil b

theorem walk_covers {spans : List Span} {boundary last : Nat} {tiles : List Tile}
    (h : Ordered spans) (hr : walk boundary spans = some (tiles, last)) :
    Covers boundary tiles last := by
  induction spans generalizing boundary tiles with
  | nil =>
      obtain ⟨rfl, rfl⟩ := Prod.mk.inj (Option.some.inj hr)
      exact .nil _
  | cons span spans ih =>
      rw [walk] at hr
      split at hr
      · exact ih h.tail hr
      · split at hr
        · cases hr
        · rename_i hhi hlo
          obtain ⟨⟨rest, end'⟩, hrest, he⟩ := Option.map_eq_some_iff.mp hr
          obtain ⟨rfl, rfl⟩ := Prod.mk.inj he
          refine (covers_gap (Nat.le_of_not_lt hlo)).append ?_
          exact .cons (.entry span) rest rfl (h.proper span List.mem_cons_self) (ih h.tail hrest)

theorem walk_gap {spans : List Span} {boundary last : Nat} {tiles : List Tile} (h : Ordered spans)
    (hr : walk boundary spans = some (tiles, last)) {lo hi : Nat} (hgap : .gap lo hi ∈ tiles) :
    boundary ≤ lo ∧ ∀ s ∈ spans, s.hi ≤ lo ∨ hi ≤ s.lo := by
  induction spans generalizing boundary tiles with
  | nil =>
      obtain ⟨rfl, rfl⟩ := Prod.mk.inj (Option.some.inj hr)
      cases hgap
  | cons span spans ih =>
      rw [walk] at hr
      split at hr
      · rename_i hhi
        obtain ⟨hle, hall⟩ := ih h.tail hr hgap
        refine ⟨hle, fun s hs => ?_⟩
        rcases List.mem_cons.mp hs with rfl | hs
        · exact .inl (Nat.le_trans hhi hle)
        · exact hall s hs
      · split at hr
        · cases hr
        · rename_i hhi hlo
          obtain ⟨⟨rest, end'⟩, hrest, he⟩ := Option.map_eq_some_iff.mp hr
          obtain ⟨rfl, rfl⟩ := Prod.mk.inj he
          rcases List.mem_append.mp hgap with hfirst | hlater
          · split at hfirst
            · obtain ⟨rfl, rfl⟩ := Tile.gap.inj (List.mem_singleton.mp hfirst)
              refine ⟨Nat.le_refl _, fun s hs => .inr ?_⟩
              rcases List.mem_cons.mp hs with rfl | hs
              · exact Nat.le_refl _
              · exact Nat.le_trans (h.proper span List.mem_cons_self) (h.head s hs)
            · cases hfirst
          · rcases List.mem_cons.mp hlater with hentry | hlater
            · cases hentry
            · obtain ⟨hle, hall⟩ := ih h.tail hrest hlater
              refine ⟨by omega, fun s hs => ?_⟩
              rcases List.mem_cons.mp hs with rfl | hs
              · exact .inl hle
              · exact hall s hs

theorem walk_entry {spans : List Span} {boundary last : Nat} {tiles : List Tile}
    (hr : walk boundary spans = some (tiles, last)) {span : Span} (hs : .entry span ∈ tiles) :
    span ∈ spans := by
  induction spans generalizing boundary tiles with
  | nil =>
      obtain ⟨rfl, rfl⟩ := Prod.mk.inj (Option.some.inj hr)
      cases hs
  | cons first spans ih =>
      rw [walk] at hr
      split at hr
      · exact List.mem_cons_of_mem _ (ih hr hs)
      · split at hr
        · cases hr
        · obtain ⟨⟨rest, end'⟩, hrest, he⟩ := Option.map_eq_some_iff.mp hr
          obtain ⟨rfl, rfl⟩ := Prod.mk.inj he
          rcases List.mem_append.mp hs with hgap | hlater
          · split at hgap
            · cases List.mem_singleton.mp hgap
            · cases hgap
          · rcases List.mem_cons.mp hlater with hentry | hlater
            · cases hentry
              exact List.mem_cons_self
            · exact List.mem_cons_of_mem _ (ih hrest hlater)

theorem walk_last {spans : List Span} {boundary last : Nat} {tiles : List Tile} (h : Ordered spans)
    (hr : walk boundary spans = some (tiles, last)) :
    boundary ≤ last ∧ (∀ s ∈ spans, s.hi ≤ last) ∧ (last = boundary ∨ ∃ s ∈ spans, s.hi = last) := by
  induction spans generalizing boundary tiles with
  | nil =>
      obtain ⟨rfl, rfl⟩ := Prod.mk.inj (Option.some.inj hr)
      exact ⟨Nat.le_refl _, fun s hs => absurd hs List.not_mem_nil, .inl rfl⟩
  | cons span spans ih =>
      rw [walk] at hr
      split at hr
      · rename_i hhi
        obtain ⟨hle, hall, hend⟩ := ih h.tail hr
        refine ⟨hle, fun s hs => ?_, hend.imp_right (fun ⟨s, hs, he⟩ =>
          ⟨s, List.mem_cons_of_mem _ hs, he⟩)⟩
        rcases List.mem_cons.mp hs with rfl | hs
        · exact Nat.le_trans hhi hle
        · exact hall s hs
      · split at hr
        · cases hr
        · rename_i hhi hlo
          obtain ⟨⟨rest, end'⟩, hrest, he⟩ := Option.map_eq_some_iff.mp hr
          obtain ⟨rfl, rfl⟩ := Prod.mk.inj he
          obtain ⟨hle, hall, hend⟩ := ih h.tail hrest
          refine ⟨by omega, fun s hs => ?_, .inr ?_⟩
          · rcases List.mem_cons.mp hs with rfl | hs
            · exact hle
            · exact hall s hs
          · rcases hend with rfl | ⟨s, hs, he⟩
            · exact ⟨span, List.mem_cons_self, rfl⟩
            · exact ⟨s, List.mem_cons_of_mem _ hs, he⟩

section Close

variable {spans : List Span} {boundary highest : Nat} {r : List Tile × Nat}

theorem close_covers (h : Ordered spans) (hr : walk boundary spans = some r)
    (hb : boundary ≤ highest) (hspans : ∀ s ∈ spans, s.hi ≤ highest) :
    Covers boundary (close highest r).1 highest ∧ (close highest r).2 = highest := by
  obtain ⟨tiles, last⟩ := r
  have hcovers := walk_covers h hr
  obtain ⟨-, -, hlast⟩ := walk_last h hr
  have hle : last ≤ highest := by
    rcases hlast with rfl | ⟨s, hs, rfl⟩
    · exact hb
    · exact hspans s hs
  rw [close]
  split
  · exact ⟨hcovers.append (.cons (.gap last highest) [] rfl hle (.nil highest)), rfl⟩
  · rename_i hlt
    obtain rfl : last = highest := Nat.le_antisymm hle (Nat.le_of_not_lt hlt)
    exact ⟨hcovers, rfl⟩

theorem close_gap (h : Ordered spans) (hr : walk boundary spans = some r) {lo hi : Nat}
    (hgap : .gap lo hi ∈ (close highest r).1) : ∀ s ∈ spans, s.hi ≤ lo ∨ hi ≤ s.lo := by
  obtain ⟨tiles, last⟩ := r
  rw [close] at hgap
  split at hgap
  · rcases List.mem_append.mp hgap with hold | hnew
    · exact (walk_gap h hr hold).2
    · obtain ⟨rfl, rfl⟩ := Tile.gap.inj (List.mem_singleton.mp hnew)
      exact fun s hs => .inl ((walk_last h hr).2.1 s hs)
  · exact (walk_gap h hr hgap).2

theorem close_entry (hr : walk boundary spans = some r) {span : Span}
    (hs : .entry span ∈ (close highest r).1) : span ∈ spans := by
  obtain ⟨tiles, last⟩ := r
  rw [close] at hs
  split at hs
  · rcases List.mem_append.mp hs with hold | hnew
    · exact walk_entry hr hold
    · cases List.mem_singleton.mp hnew
  · exact walk_entry hr hs

theorem close_entryIds (highest : Nat) (r : List Tile × Nat) :
    (close highest r).1.filterMap Tile.entryId = r.1.filterMap Tile.entryId := by
  rw [close]
  split
  · simp [Tile.entryId]
  · rfl

end Close

section Entries

def entryIds (tiles : List Tile) : List Nat := tiles.filterMap Tile.entryId

theorem entryIds_gap (p : Prop) [Decidable p] (lo hi : Nat) (tiles : List Tile) :
    entryIds ((if p then [Tile.gap lo hi] else []) ++ tiles) = entryIds tiles := by
  split <;> rfl

theorem walk_sublist {spans : List Span} {boundary last : Nat} {tiles : List Tile}
    (hr : walk boundary spans = some (tiles, last)) :
    (entryIds tiles).Sublist (spans.map Span.id) := by
  induction spans generalizing boundary tiles with
  | nil =>
      obtain ⟨rfl, rfl⟩ := Prod.mk.inj (Option.some.inj hr)
      exact List.Sublist.refl _
  | cons span spans ih =>
      rw [walk] at hr
      split at hr
      · exact (ih hr).cons _
      · split at hr
        · cases hr
        · obtain ⟨⟨rest, end'⟩, hrest, he⟩ := Option.map_eq_some_iff.mp hr
          obtain ⟨rfl, rfl⟩ := Prod.mk.inj he
          rw [entryIds_gap]
          exact (ih hrest).cons_cons span.id

/-- A span is emitted when it ends beyond the boundary and no earlier span ends
where it ends. -/
theorem mem_entryIds {spans : List Span} {boundary last : Nat} {tiles : List Tile}
    (h : Ordered spans) (hr : walk boundary spans = some (tiles, last)) {s : Span} (hs : s ∈ spans) :
    s.id ∈ entryIds tiles ↔ boundary < s.hi ∧ ∀ t ∈ spans, t.id < s.id → t.hi ≠ s.hi := by
  induction spans generalizing boundary tiles with
  | nil => cases hs
  | cons span spans ih =>
      have hids := List.pairwise_cons.mp h.ids
      have hproper := h.proper span List.mem_cons_self
      rw [walk] at hr
      rcases List.mem_cons.mp hs with rfl | hmem
      · have hno : ∀ t ∈ s :: spans, t.id < s.id → t.hi ≠ s.hi := by
          intro t ht hlt
          rcases List.mem_cons.mp ht with rfl | ht
          · exact absurd hlt (Nat.lt_irrefl _)
          · have := hids.1 t ht
            omega
        split at hr
        · rename_i hhi
          refine iff_of_false ?_ (fun hc => Nat.not_lt.mpr hhi hc.1)
          intro hmem
          obtain ⟨t, ht, he⟩ := List.mem_map.mp ((walk_sublist hr).subset hmem)
          have := hids.1 t ht
          omega
        · split at hr
          · cases hr
          · rename_i hhi hlo
            obtain ⟨⟨rest, end'⟩, hrest, he⟩ := Option.map_eq_some_iff.mp hr
            obtain ⟨rfl, rfl⟩ := Prod.mk.inj he
            rw [entryIds_gap]
            exact iff_of_true List.mem_cons_self ⟨Nat.lt_of_not_le hhi, hno⟩
      · have hlt := hids.1 s hmem
        have hlater := h.head s hmem
        have hs' := h.proper s hs
        split at hr
        · rename_i hhi
          rw [ih h.tail hr hmem]
          constructor
          · rintro ⟨hb, hall⟩
            refine ⟨hb, fun t ht hid => ?_⟩
            rcases List.mem_cons.mp ht with rfl | ht
            · omega
            · exact hall t ht hid
          · rintro ⟨hb, hall⟩
            exact ⟨hb, fun t ht => hall t (List.mem_cons_of_mem _ ht)⟩
        · split at hr
          · cases hr
          · rename_i hhi hlo
            obtain ⟨⟨rest, end'⟩, hrest, he⟩ := Option.map_eq_some_iff.mp hr
            obtain ⟨rfl, rfl⟩ := Prod.mk.inj he
            have hne : s.id ≠ span.id := by omega
            have hcons : s.id ∈ entryIds (.entry span :: rest) ↔ s.id ∈ entryIds rest := by
              show s.id ∈ span.id :: entryIds rest ↔ _
              rw [List.mem_cons, or_iff_right hne]
            rw [entryIds_gap, hcons, ih h.tail hrest hmem]
            constructor
            · rintro ⟨hb, hall⟩
              refine ⟨by omega, fun t ht hid => ?_⟩
              rcases List.mem_cons.mp ht with rfl | ht
              · omega
              · exact hall t ht hid
            · rintro ⟨hb, hall⟩
              have := hall span List.mem_cons_self hlt
              exact ⟨by omega, fun t ht => hall t (List.mem_cons_of_mem _ ht)⟩

end Entries

end Nightfrost.Tiling
