import Mathlib

namespace Nightfrost.LatestEntry

variable {α : Type} {p : α → Bool} {rank : α → Nat} {xs : List α} {a : α}

/-- One pass of a loop that keeps the entry of the highest rank, the later one
among equals. -/
def keepLatest (p : α → Bool) (rank : α → Nat) (best : Option α) (a : α) : Option α :=
  if p a then
    match best with
    | none => some a
    | some current => if rank a ≥ rank current then some a else some current
  else best

theorem keepLatest_skip (hp : ¬ p a = true) (best : Option α) : keepLatest p rank best a = best :=
  if_neg hp

theorem keepLatest_first (hp : p a = true) : keepLatest p rank none a = some a :=
  if_pos hp

theorem keepLatest_next (hp : p a = true) (current : α) : keepLatest p rank (some current) a =
    if rank a ≥ rank current then some a else some current :=
  if_pos hp

def latest (p : α → Bool) (rank : α → Nat) (xs : List α) : Option α := xs.foldl (keepLatest p rank) none

theorem latest_push (p : α → Bool) (rank : α → Nat) (xs : List α) (a : α) :
    latest p rank (xs ++ [a]) = keepLatest p rank (latest p rank xs) a := by
  rw [latest, List.foldl_append]
  rfl

/-- An entry of a list that none before it outranks, and none after it equals. -/
structure IsLatest (p : α → Bool) (rank : α → Nat) (xs : List α) (a : α) : Prop where
  holds : p a = true
  split : ∃ front back, xs = front ++ a :: back ∧ (∀ b ∈ front, p b = true → rank b ≤ rank a) ∧
    ∀ b ∈ back, p b = true → rank b < rank a

theorem IsLatest.mem (h : IsLatest p rank xs a) : a ∈ xs := by
  obtain ⟨front, back, rfl, -⟩ := h.split
  exact List.mem_append_right _ List.mem_cons_self

theorem IsLatest.le (h : IsLatest p rank xs a) {b : α} (hb : b ∈ xs) (hp : p b = true) : rank b ≤ rank a := by
  obtain ⟨front, back, rfl, hfront, hback⟩ := h.split
  rcases List.mem_append.mp hb with hb | hb
  · exact hfront b hb hp
  · rcases List.mem_cons.mp hb with rfl | hb
    · exact Nat.le_refl _
    · exact (hback b hb hp).le

theorem IsLatest.tie {r : α → α → Prop} (h : IsLatest p rank xs a) (hsorted : xs.Pairwise r) {b : α}
    (hb : b ∈ xs) (hp : p b = true) (hrank : rank b = rank a) : b = a ∨ r b a := by
  obtain ⟨front, back, rfl, -, hback⟩ := h.split
  rcases List.mem_append.mp hb with hb | hb
  · exact .inr ((List.pairwise_append.mp hsorted).2.2 b hb a List.mem_cons_self)
  · rcases List.mem_cons.mp hb with rfl | hb
    · exact .inl rfl
    · have hlt := hback b hb hp
      omega

theorem latest_none_iff : latest p rank xs = none ↔ ∀ a ∈ xs, ¬ p a = true := by
  induction xs using List.reverseRecOn with
  | nil => simp [latest]
  | append_singleton xs x ih =>
      rw [latest_push]
      by_cases hp : p x = true
      · refine iff_of_false ?_ fun hall => hall x (by simp) hp
        cases latest p rank xs with
        | none =>
            rw [keepLatest_first hp]
            exact Option.some_ne_none x
        | some current =>
            rw [keepLatest_next hp]
            split <;> exact Option.some_ne_none _
      · rw [keepLatest_skip hp, ih]
        constructor
        · intro hall a ha
          rcases List.mem_append.mp ha with ha | ha
          · exact hall a ha
          · rwa [List.mem_singleton.mp ha]
        · exact fun hall a ha => hall a (List.mem_append_left _ ha)

theorem IsLatest.push (h : IsLatest p rank xs a) {x : α} (hx : p x = true → rank x < rank a) :
    IsLatest p rank (xs ++ [x]) a := by
  obtain ⟨front, back, rfl, hfront, hback⟩ := h.split
  refine ⟨h.holds, front, back ++ [x], by simp, hfront, fun b hb hp => ?_⟩
  rcases List.mem_append.mp hb with hb | hb
  · exact hback b hb hp
  · rw [List.mem_singleton.mp hb] at hp ⊢
    exact hx hp

theorem latest_isLatest (h : latest p rank xs = some a) : IsLatest p rank xs a := by
  induction xs using List.reverseRecOn generalizing a with
  | nil => cases h
  | append_singleton xs x ih =>
      rw [latest_push] at h
      by_cases hp : p x = true
      · cases hbest : latest p rank xs with
        | none =>
            rw [hbest, keepLatest_first hp] at h
            obtain rfl := Option.some.inj h
            refine ⟨hp, xs, [], rfl, fun b hb hpb => ?_, fun b hb => absurd hb List.not_mem_nil⟩
            exact absurd hpb (latest_none_iff.mp hbest b hb)
        | some current =>
            rw [hbest, keepLatest_next hp] at h
            have hcurrent := ih hbest
            by_cases hrank : rank x ≥ rank current
            · rw [if_pos hrank] at h
              obtain rfl := Option.some.inj h
              refine ⟨hp, xs, [], rfl, fun b hb hpb => ?_, fun b hb => absurd hb List.not_mem_nil⟩
              exact (hcurrent.le hb hpb).trans hrank
            · rw [if_neg hrank] at h
              obtain rfl := Option.some.inj h
              exact hcurrent.push fun _ => Nat.lt_of_not_le hrank
      · rw [keepLatest_skip hp] at h
        exact (ih h).push fun hx => absurd hx hp

end Nightfrost.LatestEntry
