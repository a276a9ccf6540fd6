import Mathlib

namespace Nightfrost.PrefixCodes

variable {B M ε : Type}

/-- A decoder that takes off exactly the encodings of the values that fit, whatever
follows them. -/
structure Exact (enc : M → List B) (Fits : M → Prop)
    (dec : List B → Except ε (M × List B)) : Prop where
  iff : ∀ {x rest : List B} {m : M}, dec x = .ok (m, rest) ↔ Fits m ∧ x = enc m ++ rest
  nonempty : ∀ {m : M}, Fits m → enc m ≠ []

variable {enc : M → List B} {Fits : M → Prop} {dec : List B → Except ε (M × List B)}
  {m m' : M} {x rest rest' : List B}

theorem Exact.decodes (h : Exact enc Fits dec) (hm : Fits m) (rest : List B) :
    dec (enc m ++ rest) = .ok (m, rest) := h.iff.mpr ⟨hm, rfl⟩

theorem Exact.unique (h : Exact enc Fits dec) (hm : Fits m) (hm' : Fits m')
    (heq : enc m ++ rest = enc m' ++ rest') : m = m' ∧ rest = rest' := by
  have hdec := h.decodes hm rest
  rw [heq, h.decodes hm' rest'] at hdec
  simp only [Except.ok.injEq, Prod.mk.injEq] at hdec
  exact ⟨hdec.1.symm, hdec.2.symm⟩

theorem Exact.shrinks (h : Exact enc Fits dec) (hdec : dec x = .ok (m, rest)) :
    rest.length < x.length := by
  obtain ⟨hm, rfl⟩ := h.iff.mp hdec
  have hpos := List.length_pos_iff.mpr (h.nonempty hm)
  rw [List.length_append]
  omega

/-- What decodes from the start of an encoding and padding reaches into the padding,
and leaves only padding behind. -/
theorem Exact.torn (h : Exact enc Fits dec) (hm : Fits m) {j : Nat} (hj : j < (enc m).length)
    {pad : List B} (hdec : dec ((enc m).take j ++ pad) = .ok (m', rest)) :
    ∃ used, pad = used ++ rest ∧ used ≠ [] ∧ enc m' = (enc m).take j ++ used := by
  obtain ⟨hm', heq⟩ := h.iff.mp hdec
  rcases List.append_eq_append_iff.mp heq with ⟨used, henc, hpad⟩ | ⟨more, htake, -⟩
  · refine ⟨used, hpad, ?_, henc⟩
    rintro rfl
    rw [List.append_nil] at henc
    have hall : enc m' ++ (enc m).drop j = enc m ++ [] := by
      rw [henc, List.take_append_drop, List.append_nil]
    have hdrop := (h.unique hm' hm hall).2
    rw [List.drop_eq_nil_iff] at hdrop
    omega
  · exfalso
    have hall : enc m' ++ (more ++ (enc m).drop j) = enc m ++ [] := by
      rw [← List.append_assoc, ← htake, List.take_append_drop, List.append_nil]
    have hdrop := congrArg List.length (h.unique hm' hm hall).2
    rw [List.length_append, List.length_drop, List.length_nil] at hdrop
    omega

theorem cut_flatten {pieces : List (List B)} {n : Nat} (hn : n < pieces.flatten.length) :
    ∃ before piece after j, pieces = before ++ piece :: after ∧ j < piece.length ∧
      n = before.flatten.length + j ∧
      pieces.flatten.take n = before.flatten ++ piece.take j := by
  induction pieces generalizing n with
  | nil => exact absurd hn (Nat.not_lt_zero _)
  | cons piece pieces ih =>
      by_cases hin : n < piece.length
      · refine ⟨[], piece, pieces, n, rfl, hin, by simp, ?_⟩
        rw [List.flatten_cons, List.take_append_of_le_length (Nat.le_of_lt hin)]
        rfl
      · rw [List.flatten_cons, List.length_append] at hn
        obtain ⟨before, last, after, j, rfl, hj, hlen, htake⟩ :=
          @ih (n - piece.length) (by omega)
        refine ⟨piece :: before, last, after, j, rfl, hj, ?_, ?_⟩
        · rw [List.flatten_cons, List.length_append]
          omega
        · rw [List.flatten_cons, List.take_append, List.take_of_length_le (by omega), htake,
            List.flatten_cons, List.append_assoc]

end Nightfrost.PrefixCodes
