import Mathlib

namespace Nightfrost.Pages

variable {α κ : Type} {r : κ → κ → Prop} [DecidableRel r] {f : α → κ} {xs : List α}

def after (r : κ → κ → Prop) [DecidableRel r] (f : α → κ) (position : Option κ) (xs : List α) :
    List α :=
  match position with
  | none => xs
  | some p => xs.filter (fun a => r p (f a))

theorem filter_pos_self {p : α → Bool} (h : ∀ a ∈ xs, p a = true) : xs.filter p = xs :=
  List.filter_eq_self.mpr h

theorem filter_last (hasymm : ∀ a b, r a b → ¬ r b a) (h : xs.Pairwise (fun a b => r (f a) (f b)))
    {count : Nat} {a : α} (ha : (xs.take count).getLast? = some a) :
    xs.filter (fun b => r (f a) (f b)) = xs.drop count := by
  obtain ⟨front, hfront⟩ := List.getLast?_eq_some_iff.mp ha
  have hsplit := List.take_append_drop count xs
  rw [← hsplit, hfront] at h
  obtain ⟨hleft, -, hacross⟩ := List.pairwise_append.mp h
  obtain ⟨-, -, hbefore⟩ := List.pairwise_append.mp hleft
  have hdrop : (xs.drop count).filter (fun b => r (f a) (f b)) = xs.drop count :=
    filter_pos_self (fun b hb => by simpa using hacross a (by simp) b hb)
  have htake : (front ++ [a]).filter (fun b => r (f a) (f b)) = [] := by
    rw [List.filter_eq_nil_iff]
    intro b hb hab
    rw [decide_eq_true_eq] at hab
    rcases List.mem_append.mp hb with hb | hb
    · exact hasymm _ _ hab (hbefore b hb a (by simp))
    · obtain rfl := List.mem_singleton.mp hb
      exact hasymm _ _ hab hab
  calc xs.filter (fun b => r (f a) (f b))
      = (front ++ [a] ++ xs.drop count).filter (fun b => r (f a) (f b)) := by
        rw [← hfront, hsplit]
    _ = xs.drop count := by rw [List.filter_append, htake, hdrop, List.nil_append]

theorem after_last (hasymm : ∀ a b, r a b → ¬ r b a) (htrans : ∀ a b c, r a b → r b c → r a c)
    (h : xs.Pairwise (fun a b => r (f a) (f b))) {position : Option κ} {count : Nat} {a : α}
    (ha : ((after r f position xs).take count).getLast? = some a) :
    after r f (some (f a)) xs = (after r f position xs).drop count := by
  cases position with
  | none => exact filter_last hasymm h ha
  | some p =>
      have hmem := List.mem_of_mem_take (List.mem_of_getLast? ha)
      have hpa : r p (f a) := by simpa using (List.mem_filter.mp hmem).2
      have hrest := filter_last hasymm (h.filter _) ha
      rw [after, after] at *
      rw [← hrest, List.filter_filter]
      refine List.filter_congr (fun b _ => ?_)
      rw [← Bool.decide_and, decide_eq_decide]
      exact ⟨fun hab => ⟨hab, htrans p (f a) (f b) hpa hab⟩, fun hab => hab.1⟩

section Threshold

/-- Of an ascending list, the entries below a threshold. -/
def below (n : Nat) (xs : List Nat) : List Nat := xs.filter (· < n)

/-- Of an ascending list, the entries from a threshold on. -/
def onward (n : Nat) (xs : List Nat) : List Nat := xs.filter (n ≤ ·)

variable {ids : List Nat}

theorem below_append_onward (h : ids.Pairwise (· < ·)) (n : Nat) : below n ids ++ onward n ids = ids := by
  induction ids with
  | nil => rfl
  | cons i ids ih =>
      have hi := (List.pairwise_cons.mp h).1
      by_cases hlt : i < n
      · rw [below, onward, List.filter_cons_of_pos (by simpa using hlt),
          List.filter_cons_of_neg (by simpa using hlt), List.cons_append]
        exact congrArg (i :: ·) (ih h.of_cons)
      · have hnone : below n (i :: ids) = [] := by
          rw [below, List.filter_eq_nil_iff]
          intro j hj hlt'
          rw [decide_eq_true_eq] at hlt'
          rcases List.mem_cons.mp hj with rfl | hj
          · exact hlt hlt'
          · have := hi j hj
            omega
        have hall : onward n (i :: ids) = i :: ids := by
          refine filter_pos_self (fun j hj => ?_)
          rw [decide_eq_true_eq]
          rcases List.mem_cons.mp hj with rfl | hj
          · omega
          · have := hi j hj
            omega
        rw [hnone, hall, List.nil_append]

theorem mem_below {n i : Nat} : i ∈ below n ids ↔ i ∈ ids ∧ i < n := by
  simp [below]

theorem mem_onward {n i : Nat} : i ∈ onward n ids ↔ i ∈ ids ∧ n ≤ i := by
  simp [onward]

theorem below_append_page (h : ids.Pairwise (· < ·)) {n count last : Nat}
    (hlast : ((onward n ids).take count).getLast? = some last) :
    below n ids ++ (onward n ids).take count = below (last + 1) ids := by
  have hmem := (mem_onward.mp (List.mem_of_mem_take (List.mem_of_getLast? hlast))).2
  have hsorted : (onward n ids).Pairwise (· < ·) := h.filter _
  have hrest : (onward n ids).drop count = onward (last + 1) ids := by
    have hdrop := filter_last (r := fun a b : Nat => a < b) (f := fun i : Nat => i)
      (fun a b => Nat.lt_asymm) hsorted hlast
    rw [← hdrop, onward, onward, List.filter_filter]
    refine List.filter_congr (fun i _ => ?_)
    rw [← Bool.decide_and, decide_eq_decide]
    omega
  refine List.append_cancel_right (?_ : _ ++ onward (last + 1) ids = _ ++ onward (last + 1) ids)
  calc below n ids ++ (onward n ids).take count ++ onward (last + 1) ids
      = below n ids ++ onward n ids := by rw [List.append_assoc, ← hrest, List.take_append_drop]
    _ = below (last + 1) ids ++ onward (last + 1) ids := by
        rw [below_append_onward h, below_append_onward h]

end Threshold

section Select

variable {V Row : Type}

/-- What is picked of the entries of a log, each with its position. -/
def select (entries : List V) (pick : V → Nat → Option Row) : List (Nat × Row) :=
  entries.zipIdx.filterMap (fun e => (pick e.1 e.2).map (fun row => (e.2, row)))

theorem mem_select {entries : List V} {pick : V → Nat → Option Row} {row : Nat × Row} :
    row ∈ select entries pick ↔ ∃ v, entries[row.1]? = some v ∧ pick v row.1 = some row.2 := by
  rw [select, List.mem_filterMap]
  constructor
  · rintro ⟨⟨v, i⟩, hmem, hrow⟩
    obtain ⟨r, hpick, rfl⟩ := Option.map_eq_some_iff.mp hrow
    exact ⟨v, List.mk_mem_zipIdx_iff_getElem?.mp hmem, hpick⟩
  · rintro ⟨v, hget, hpick⟩
    refine ⟨(v, row.1), List.mk_mem_zipIdx_iff_getElem?.mpr hget, ?_⟩
    rw [hpick]
    rfl

theorem select_sorted (entries : List V) (pick : V → Nat → Option Row) :
    (select entries pick).Pairwise (fun a b => a.1 < b.1) := by
  rw [select, List.pairwise_filterMap, List.pairwise_iff_getElem]
  intro i j hi hj hij a ha b hb
  rw [List.getElem_zipIdx, Nat.zero_add] at ha hb
  obtain ⟨r, -, rfl⟩ := Option.map_eq_some_iff.mp ha
  obtain ⟨r', -, rfl⟩ := Option.map_eq_some_iff.mp hb
  exact hij

theorem select_grown {entries new : List V} {pick pick' : V → Nat → Option Row}
    (hold : ∀ i v, entries[i]? = some v → pick' v i = pick v i)
    (hnew : ∀ v ∈ new, ∀ i, pick' v i = none) :
    select (entries ++ new) pick' = select entries pick := by
  have hfirst : entries.zipIdx.filterMap (fun e => (pick' e.1 e.2).map (fun row => (e.2, row))) =
      select entries pick := by
    refine List.filterMap_congr (fun e he => ?_)
    rw [hold e.2 e.1 (List.mk_mem_zipIdx_iff_getElem?.mp he)]
  have hrest : (new.zipIdx entries.length).filterMap
      (fun e => (pick' e.1 e.2).map (fun row => (e.2, row))) = [] := by
    rw [List.filterMap_eq_nil_iff]
    intro e he
    rw [hnew e.1 (List.fst_mem_of_mem_zipIdx he)]
    rfl
  rw [select, List.zipIdx_append, List.filterMap_append, Nat.zero_add, hfirst, hrest, List.append_nil]

end Select

end Nightfrost.Pages
