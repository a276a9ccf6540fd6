import Nightfrost.Pages

namespace Nightfrost.PagedWalks

open Pages

variable {κ V : Type}

/-- A page of a walk over rows that change between the pages: the rows that were
there when it was read, in the order of the walk, and those that it returned. -/
structure Visit (κ V : Type) where
  held : List (κ × V)
  page : List (κ × V)

/-- A walk behind a position: each page goes on behind the last key of the page
before, and the final one leaves nothing behind it. -/
inductive Visits (r : κ → κ → Prop) [DecidableRel r] : Option κ → List (Visit κ V) → Prop
  | final {position : Option κ} {held : List (κ × V)} :
      Visits r position [⟨held, after r Prod.fst position held⟩]
  | next {position : Option κ} {held page : List (κ × V)} {last : κ × V} {rest : List (Visit κ V)}
      (hpage : page <+: after r Prod.fst position held) (hlast : page.getLast? = some last)
      (h : Visits r (some last.1) rest) : Visits r position (⟨held, page⟩ :: rest)

def returned (visits : List (Visit κ V)) : List (κ × V) := visits.flatMap Visit.page

@[simp] theorem returned_cons (visit : Visit κ V) (visits : List (Visit κ V)) :
    returned (visit :: visits) = visit.page ++ returned visits := List.flatMap_cons

def Sorted (r : κ → κ → Prop) (rows : List (κ × V)) : Prop := rows.Pairwise (fun a b => r a.1 b.1)

theorem nodup_keys {r : κ → κ → Prop} (hirr : ∀ a, ¬ r a a) {rows : List (κ × V)} (h : Sorted r rows) :
    (rows.map Prod.fst).Nodup := by
  refine List.pairwise_map.mpr (h.imp fun {a b} hab he => ?_)
  rw [he] at hab
  exact hirr _ hab

section Beyond

variable {r : κ → κ → Prop} {position : Option κ} {k : κ}

def Beyond (r : κ → κ → Prop) (rows : List (κ × V)) (k : κ) : Prop := ∀ row ∈ rows, r row.1 k

theorem left_out {rows : List (κ × V)} {count : Nat} (h : Sorted r rows) (hmore : rows.length > count) :
    ∃ row ∈ rows, Beyond r (rows.take count) row.1 := by
  have hne : rows.drop count ≠ [] := by
    intro hnil
    have hlen := List.drop_eq_nil_iff.mp hnil
    omega
  obtain ⟨row, hrow⟩ := List.exists_mem_of_ne_nil _ hne
  refine ⟨row, List.mem_of_mem_drop hrow, fun other hother => ?_⟩
  rw [← List.take_append_drop count rows] at h
  exact (List.pairwise_append.mp h).2.2 other hother row hrow

theorem beyond_page {page rows : List (κ × V)} {last : κ × V} (htrans : ∀ a b c, r a b → r b c → r a c)
    (hpage : Sorted r page) (hlast : page.getLast? = some last) (hbehind : ∀ p, position = some p → r p last.1) :
    ((∀ p, position = some p → r p k) ∧ Beyond r (page ++ rows) k) ↔ r last.1 k ∧ Beyond r rows k := by
  constructor
  · rintro ⟨-, hall⟩
    exact ⟨hall last (List.mem_append_left _ (List.mem_of_getLast? hlast)),
      fun row hrow => hall row (List.mem_append_right _ hrow)⟩
  · rintro ⟨hk, hall⟩
    refine ⟨fun p hp => htrans _ _ _ (hbehind p hp) hk, fun row hrow => ?_⟩
    rcases List.mem_append.mp hrow with hrow | hrow
    · obtain ⟨front, rfl⟩ := List.getLast?_eq_some_iff.mp hlast
      rcases List.mem_append.mp hrow with hrow | hrow
      · exact htrans _ _ _ ((List.pairwise_append.mp hpage).2.2 row hrow last (by simp)) hk
      · rwa [List.mem_singleton.mp hrow]
    · exact hall row hrow

end Beyond

section Returned

variable {r : κ → κ → Prop} [DecidableRel r] {position : Option κ} {visits : List (Visit κ V)} {row : κ × V} {k : κ}

theorem mem_after_iff {rows : List (κ × V)} :
    row ∈ after r Prod.fst position rows ↔ row ∈ rows ∧ ∀ p, position = some p → r p row.1 := by
  cases position with
  | none => simp [after]
  | some p => simp [after, List.mem_filter]

theorem after_sublist (position : Option κ) (rows : List (κ × V)) :
    (after r Prod.fst position rows).Sublist rows := by
  cases position with
  | none => exact List.Sublist.refl _
  | some p => exact List.filter_sublist

theorem Visits.mem_returned (htrans : ∀ a b c, r a b → r b c → r a c) (h : Visits r position visits)
    (hrow : row ∈ returned visits) :
    (∃ visit ∈ visits, row ∈ visit.held ∧ row ∈ visit.page) ∧
      ∀ p, position = some p → r p row.1 := by
  induction h with
  | final =>
      rw [returned, List.flatMap_singleton] at hrow
      obtain ⟨hheld, hbehind⟩ := mem_after_iff.mp hrow
      exact ⟨⟨_, List.mem_singleton_self _, hheld, hrow⟩, hbehind⟩
  | @next position held page last rest hpage hlast h ih =>
      rw [returned, List.flatMap_cons] at hrow
      rcases List.mem_append.mp hrow with hrow | hrow
      · obtain ⟨hheld, hbehind⟩ := mem_after_iff.mp (hpage.subset hrow)
        exact ⟨⟨_, List.mem_cons_self, hheld, hrow⟩, hbehind⟩
      · obtain ⟨⟨visit, hvisit, hmem⟩, hbehind⟩ := ih hrow
        refine ⟨⟨visit, List.mem_cons_of_mem _ hvisit, hmem⟩, fun p hp => ?_⟩
        have hend := mem_after_iff.mp (hpage.subset (List.mem_of_getLast? hlast))
        exact htrans _ _ _ (hend.2 p hp) (hbehind _ rfl)

theorem Visits.sorted (htrans : ∀ a b c, r a b → r b c → r a c) (h : Visits r position visits)
    (hheld : ∀ visit ∈ visits, Sorted r visit.held) : Sorted r (returned visits) := by
  induction h with
  | final =>
      rw [returned, List.flatMap_singleton]
      exact (hheld _ (List.mem_singleton_self _)).sublist (after_sublist _ _)
  | @next position held page last rest hpage hlast h ih =>
      have hsorted : Sorted r page :=
        (hheld _ List.mem_cons_self).sublist (hpage.sublist.trans (after_sublist _ _))
      rw [returned, List.flatMap_cons]
      refine List.pairwise_append.mpr ⟨hsorted, ih (fun v hv => hheld v (List.mem_cons_of_mem _ hv)), ?_⟩
      intro a ha b hb
      have hb' := (h.mem_returned htrans hb).2 _ rfl
      obtain ⟨front, rfl⟩ := List.getLast?_eq_some_iff.mp hlast
      rcases List.mem_append.mp ha with ha | ha
      · have hlast' := (List.pairwise_append.mp hsorted).2.2 a ha last (List.mem_singleton_self _)
        exact htrans _ _ _ hlast' hb'
      · rwa [List.mem_singleton.mp ha]

theorem Visits.complete (h : Visits r position visits)
    (hheld : ∀ visit ∈ visits, Sorted r visit.held) (hk : ∀ p, position = some p → r p k)
    (hall : ∀ visit ∈ visits, k ∈ visit.held.map Prod.fst) : k ∈ (returned visits).map Prod.fst := by
  induction h with
  | final =>
      obtain ⟨row, hrow, rfl⟩ := List.mem_map.mp (hall _ (List.mem_singleton_self _))
      rw [returned, List.flatMap_singleton]
      exact List.mem_map_of_mem (mem_after_iff.mpr ⟨hrow, hk⟩)
  | @next position held page last rest hpage hlast h ih =>
      obtain ⟨row, hrow, rfl⟩ := List.mem_map.mp (hall _ List.mem_cons_self)
      have hmem := mem_after_iff.mpr ⟨hrow, hk⟩
      have hsorted : Sorted r (after r Prod.fst position held) :=
        (hheld _ List.mem_cons_self).sublist (after_sublist _ _)
      rw [returned, List.flatMap_cons, List.map_append, List.mem_append]
      obtain ⟨behind, hbehind⟩ := hpage
      rw [← hbehind] at hmem hsorted
      rcases List.mem_append.mp hmem with hmem | hmem
      · exact .inl (List.mem_map_of_mem hmem)
      · refine .inr (ih (fun v hv => hheld v (List.mem_cons_of_mem _ hv)) ?_
          (fun v hv => hall v (List.mem_cons_of_mem _ hv)))
        intro p hp
        obtain rfl := Option.some_inj.mp hp
        exact (List.pairwise_append.mp hsorted).2.2 _ (List.mem_of_getLast? hlast) _ hmem

/-- A key that every page holds is returned exactly once. -/
theorem Visits.count_eq_one [BEq κ] [LawfulBEq κ] (hirr : ∀ a, ¬ r a a) (htrans : ∀ a b c, r a b → r b c → r a c)
    (h : Visits r position visits) (hheld : ∀ visit ∈ visits, Sorted r visit.held)
    (hk : ∀ p, position = some p → r p k) (hall : ∀ visit ∈ visits, k ∈ visit.held.map Prod.fst) :
    ((returned visits).map Prod.fst).count k = 1 :=
  List.count_eq_one_of_mem (nodup_keys hirr (h.sorted htrans hheld)) (h.complete hheld hk hall)

theorem Visits.unchanged (hasymm : ∀ a b, r a b → ¬ r b a) (htrans : ∀ a b c, r a b → r b c → r a c)
    (h : Visits r position visits) {rows : List (κ × V)} (hsorted : Sorted r rows)
    (hall : ∀ visit ∈ visits, visit.held = rows) :
    returned visits = after r Prod.fst position rows := by
  induction h with
  | final =>
      rw [returned, List.flatMap_singleton]
      obtain rfl := hall _ (List.mem_singleton_self _)
      rfl
  | @next position held page last rest hpage hlast h ih =>
      obtain rfl : held = rows := hall _ List.mem_cons_self
      have hcut : page = (after r Prod.fst position held).take page.length :=
        (List.prefix_iff_eq_take.mp hpage)
      have hrest := after_last hasymm htrans hsorted (hcut ▸ hlast)
      rw [returned, List.flatMap_cons]
      change page ++ returned rest = _
      rw [ih (fun v hv => hall v (List.mem_cons_of_mem _ hv)), hrest]
      nth_rewrite 1 [hcut]
      exact List.take_append_drop _ _

end Returned

end Nightfrost.PagedWalks
