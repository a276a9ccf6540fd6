import Mathlib

namespace Nightfrost.Worklist

variable {α : Type}

/-- What a node can reach; a node without an entry has no children. -/
inductive Reach (children : α → Option (List α)) (root : α) : α → Prop
  | root : Reach children root root
  | child {a b : α} {cs : List α} (h : Reach children root a) (ha : children a = some cs)
      (hb : b ∈ cs) : Reach children root b

def Complete (children : α → Option (List α)) (root : α) : Prop :=
  ∀ a, Reach children root a → (children a).isSome

variable {children : α → Option (List α)} {root : α} {visited frontier : List α}

/-- What is visited is there, and its children are visited or wait. -/
structure Explored (children : α → Option (List α)) (root : α) (visited frontier : List α) : Prop where
  found : root ∈ visited ∨ root ∈ frontier
  reached : ∀ a ∈ frontier, Reach children root a
  expanded : ∀ a ∈ visited, ∃ cs, children a = some cs ∧ ∀ b ∈ cs, b ∈ visited ∨ b ∈ frontier

theorem Explored.start : Explored children root [] [root] := by
  refine ⟨.inr List.mem_cons_self, fun a ha => ?_, fun a ha => by cases ha⟩
  rw [List.mem_singleton.mp ha]
  exact .root

theorem Explored.skip {a : α} (h : Explored children root visited (a :: frontier)) (ha : a ∈ visited) :
    Explored children root visited frontier := by
  have drop : ∀ b, b ∈ visited ∨ b ∈ a :: frontier → b ∈ visited ∨ b ∈ frontier := by
    intro b hb
    rcases hb with hb | hb
    · exact .inl hb
    · rcases List.mem_cons.mp hb with rfl | hb
      · exact .inl ha
      · exact .inr hb
  refine ⟨drop _ h.found, fun b hb => h.reached b (List.mem_cons_of_mem _ hb), fun b hb => ?_⟩
  obtain ⟨cs, hcs, hall⟩ := h.expanded b hb
  exact ⟨cs, hcs, fun c hc => drop c (hall c hc)⟩

theorem Explored.expand {a : α} {cs : List α} (h : Explored children root visited (a :: frontier))
    (hcs : children a = some cs) :
    Explored children root (a :: visited) (cs.reverse ++ frontier) := by
  have move : ∀ b, b ∈ visited ∨ b ∈ a :: frontier →
      b ∈ a :: visited ∨ b ∈ cs.reverse ++ frontier := by
    intro b hb
    rcases hb with hb | hb
    · exact .inl (List.mem_cons_of_mem _ hb)
    · rcases List.mem_cons.mp hb with rfl | hb
      · exact .inl List.mem_cons_self
      · exact .inr (List.mem_append_right _ hb)
  refine ⟨move _ h.found, fun b hb => ?_, fun b hb => ?_⟩
  · rcases List.mem_append.mp hb with hb | hb
    · exact (h.reached a List.mem_cons_self).child hcs (List.mem_reverse.mp hb)
    · exact h.reached b (List.mem_cons_of_mem _ hb)
  · rcases List.mem_cons.mp hb with rfl | hb
    · exact ⟨cs, hcs, fun c hc => .inr (List.mem_append_left _ (List.mem_reverse.mpr hc))⟩
    · obtain ⟨ds, hds, hall⟩ := h.expanded b hb
      exact ⟨ds, hds, fun c hc => move c (hall c hc)⟩

theorem Explored.complete (h : Explored children root visited []) : Complete children root := by
  have hvisited : ∀ a, Reach children root a → a ∈ visited := by
    intro a ha
    induction ha with
    | root => exact h.found.resolve_right List.not_mem_nil
    | child ha hcs hb ih =>
        obtain ⟨cs, hcs', hall⟩ := h.expanded _ ih
        obtain rfl := Option.some_inj.mp (hcs.symm.trans hcs')
        exact (hall _ hb).resolve_right List.not_mem_nil
  intro a ha
  obtain ⟨cs, hcs, -⟩ := h.expanded a (hvisited a ha)
  rw [hcs]
  rfl

theorem Reach.congr {children' : α → Option (List α)}
    (hsame : ∀ a, Reach children root a → children' a = children a) {a : α}
    (h : Reach children' root a) : Reach children root a := by
  induction h with
  | root => exact .root
  | child _ hcs hb ih =>
      rw [hsame _ ih] at hcs
      exact .child ih hcs hb

theorem Complete.congr {children' : α → Option (List α)} (h : Complete children root)
    (hsame : ∀ a, Reach children root a → children' a = children a) : Complete children' root := by
  intro a ha
  have hreach := Reach.congr hsame ha
  rw [hsame a hreach]
  exact h a hreach

variable [DecidableEq α] {b : Bool}

/-- The search with a stack, which ends at the first missing node; `none` where
the fuel is too little. -/
def search (children : α → Option (List α)) : Nat → List α → List α → Option Bool
  | _, _, [] => some true
  | 0, _, _ :: _ => none
  | fuel + 1, visited, a :: frontier =>
      if a ∈ visited then search children fuel visited frontier
      else
        match children a with
        | some cs => search children fuel (a :: visited) (cs.reverse ++ frontier)
        | none => some false

theorem search_mono {fuel : Nat} (h : search children fuel visited frontier = some b) (more : Nat) :
    search children (fuel + more) visited frontier = some b := by
  induction fuel generalizing visited frontier with
  | zero =>
      cases frontier with
      | nil => simpa [search] using h
      | cons a frontier => cases h
  | succ fuel ih =>
      cases frontier with
      | nil => simpa [search] using h
      | cons a frontier =>
          rw [Nat.succ_add, search]
          rw [search] at h
          by_cases ha : a ∈ visited
          · rw [if_pos ha] at h ⊢
            exact ih h
          · rw [if_neg ha] at h ⊢
            cases hc : children a with
            | none => rwa [hc] at h
            | some cs =>
                rw [hc] at h
                exact ih h

theorem search_sound {fuel : Nat} (h : Explored children root visited frontier)
    (hsearch : search children fuel visited frontier = some b) : b = true ↔ Complete children root := by
  induction fuel generalizing visited frontier with
  | zero =>
      cases frontier with
      | nil =>
          obtain rfl := Option.some_inj.mp hsearch
          exact iff_of_true rfl h.complete
      | cons a frontier => cases hsearch
  | succ fuel ih =>
      cases frontier with
      | nil =>
          obtain rfl := Option.some_inj.mp hsearch
          exact iff_of_true rfl h.complete
      | cons a frontier =>
          rw [search] at hsearch
          by_cases ha : a ∈ visited
          · rw [if_pos ha] at hsearch
            exact ih (h.skip ha) hsearch
          · rw [if_neg ha] at hsearch
            cases hc : children a with
            | none =>
                rw [hc] at hsearch
                obtain rfl := Option.some_inj.mp hsearch
                refine iff_of_false Bool.false_ne_true fun hall => ?_
                have hthere := hall a (h.reached a List.mem_cons_self)
                rw [hc] at hthere
                cases hthere
            | some cs =>
                rw [hc] at hsearch
                exact ih (h.expand hc) hsearch

def unvisited (present : Finset α) (visited : List α) : Nat :=
  (present.filter (fun a => a ∉ visited)).card

theorem unvisited_lt {present : Finset α} {a : α} (ha : a ∈ present) (hnew : a ∉ visited) :
    unvisited present (a :: visited) < unvisited present visited := by
  apply Finset.card_lt_card
  refine Finset.ssubset_iff_subset_ne.mpr ⟨fun b hb => ?_, fun he => ?_⟩
  · rw [Finset.mem_filter, List.mem_cons, not_or] at hb
    exact Finset.mem_filter.mpr ⟨hb.1, hb.2.2⟩
  · have hmem : a ∈ present.filter (fun b => b ∉ visited) := Finset.mem_filter.mpr ⟨ha, hnew⟩
    rw [← he, Finset.mem_filter] at hmem
    exact hmem.2 List.mem_cons_self

theorem search_ends {present : Finset α} (hpresent : ∀ a cs, children a = some cs → a ∈ present)
    (n : Nat) : ∀ visited frontier, unvisited present visited < n →
      ∃ fuel b, search children fuel visited frontier = some b := by
  induction n with
  | zero => intro visited frontier hn; omega
  | succ n ih =>
      intro visited frontier hn
      induction frontier with
      | nil => exact ⟨0, true, rfl⟩
      | cons a frontier ih' =>
          by_cases ha : a ∈ visited
          · obtain ⟨fuel, b, hsearch⟩ := ih'
            exact ⟨fuel + 1, b, by rw [search, if_pos ha, hsearch]⟩
          · cases hc : children a with
            | none => exact ⟨1, false, by rw [search, if_neg ha, hc]⟩
            | some cs =>
                have hless := unvisited_lt (hpresent a cs hc) ha
                obtain ⟨fuel, b, hsearch⟩ := ih (a :: visited) (cs.reverse ++ frontier) (by omega)
                exact ⟨fuel + 1, b, by rw [search, if_neg ha, hc]; exact hsearch⟩

/-- On a finite graph the search ends, with the right answer. -/
theorem search_decides (hfinite : {a | (children a).isSome}.Finite) (root : α) :
    ∃ fuel b, (∀ more, search children (fuel + more) [] [root] = some b) ∧
      (b = true ↔ Complete children root) := by
  have hpresent : ∀ a cs, children a = some cs → a ∈ hfinite.toFinset := by
    intro a cs hcs
    rw [Set.Finite.mem_toFinset, Set.mem_ofPred_eq, hcs]
    rfl
  obtain ⟨fuel, b, hsearch⟩ := search_ends hpresent _ [] [root] (Nat.lt_succ_self _)
  exact ⟨fuel, b, search_mono hsearch, search_sound .start hsearch⟩

end Nightfrost.Worklist
