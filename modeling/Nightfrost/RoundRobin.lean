import Mathlib

namespace Nightfrost.RoundRobin

variable {α : Type}

def heads (streams : List (List α)) : List α := streams.filterMap List.head?

def tails (streams : List (List α)) : List (List α) := streams.map List.tail

theorem tails_length_le (streams : List (List α)) :
    (tails streams).flatten.length ≤ streams.flatten.length := by
  induction streams with
  | nil => exact Nat.le_refl _
  | cons stream streams ih =>
      show (stream.tail ++ (tails streams).flatten).length ≤ (stream ++ streams.flatten).length
      rw [List.length_append, List.length_append, List.length_tail]
      omega

theorem tails_length_lt {streams : List (List α)} (h : heads streams ≠ []) :
    (tails streams).flatten.length < streams.flatten.length := by
  induction streams with
  | nil => exact absurd rfl h
  | cons stream streams ih =>
      show (stream.tail ++ (tails streams).flatten).length < (stream ++ streams.flatten).length
      rw [List.length_append, List.length_append, List.length_tail]
      cases stream with
      | nil => exact Nat.add_lt_add_left (ih h) _
      | cons a stream =>
          have hle := tails_length_le streams
          rw [List.length_cons]
          omega

/-- The rounds, up to the one in which no stream has an element left. -/
def roundRobin (streams : List (List α)) : List (List α) :=
  if _h : heads streams = [] then [] else heads streams :: roundRobin (tails streams)
termination_by streams.flatten.length
decreasing_by exact tails_length_lt _h

theorem mem_roundRobin {streams : List (List α)} {a : α} (h : a ∈ (roundRobin streams).flatten) :
    ∃ stream ∈ streams, a ∈ stream := by
  induction streams using roundRobin.induct with
  | case1 streams hempty =>
      rw [roundRobin, dif_pos hempty] at h
      cases h
  | case2 streams hmore ih =>
      rw [roundRobin, dif_neg hmore, List.flatten_cons] at h
      rcases List.mem_append.mp h with hhead | hrest
      · obtain ⟨stream, hstream, ha⟩ := List.mem_filterMap.mp hhead
        exact ⟨stream, hstream, List.mem_of_head? ha⟩
      · obtain ⟨stream, hstream, ha⟩ := ih hrest
        obtain ⟨whole, hwhole, rfl⟩ := List.mem_map.mp hstream
        exact ⟨whole, hwhole, List.mem_of_mem_tail ha⟩

theorem filter_heads {p : α → Bool} {streams : List (List α)}
    (h : ∀ stream ∈ streams, stream.filter p = []) : (heads streams).filter p = [] := by
  rw [List.filter_eq_nil_iff]
  intro a ha
  obtain ⟨stream, hstream, hhead⟩ := List.mem_filterMap.mp ha
  exact List.filter_eq_nil_iff.mp (h stream hstream) a (List.mem_of_head? hhead)

/-- Elements that only one stream has come in the order of that stream. -/
theorem filter_roundRobin {p : α → Bool} (before after : List (List α)) (stream : List α)
    (hbefore : ∀ other ∈ before, other.filter p = []) (hafter : ∀ other ∈ after, other.filter p = []) :
    (roundRobin (before ++ stream :: after)).flatten.filter p = stream.filter p := by
  generalize hs : before ++ stream :: after = streams
  induction streams using roundRobin.induct generalizing before stream after with
  | case1 streams hempty =>
      rw [roundRobin, dif_pos hempty]
      rw [← hs, heads, List.filterMap_append, List.append_eq_nil_iff] at hempty
      cases stream with
      | nil => rfl
      | cons a stream =>
          have hback : a :: after.filterMap List.head? = [] := hempty.2
          cases hback
  | case2 streams hmore ih =>
      have htail : ∀ other : List α, other.filter p = [] → other.tail.filter p = [] := by
        intro other hother
        rw [List.filter_eq_nil_iff] at hother ⊢
        exact fun a ha => hother a (List.mem_of_mem_tail ha)
      have hrest := ih (before.map List.tail) (after.map List.tail) stream.tail
        (by
          intro other hother
          obtain ⟨whole, hwhole, rfl⟩ := List.mem_map.mp hother
          exact htail whole (hbefore whole hwhole))
        (by
          intro other hother
          obtain ⟨whole, hwhole, rfl⟩ := List.mem_map.mp hother
          exact htail whole (hafter whole hwhole))
        (by rw [← hs, tails, List.map_append, List.map_cons])
      have hheads : (heads streams).filter p = (stream.head?.toList).filter p := by
        rw [← hs, heads, List.filterMap_append, List.filter_append]
        have hfront : (before.filterMap List.head?).filter p = [] := filter_heads hbefore
        have hback : (after.filterMap List.head?).filter p = [] := filter_heads hafter
        rw [hfront, List.nil_append]
        cases stream with
        | nil =>
            rw [List.filterMap_cons_none rfl, hback]
            rfl
        | cons a stream =>
            show (a :: after.filterMap List.head?).filter p = [a].filter p
            rw [List.filter_cons, List.filter_cons, hback]
            rfl
      rw [roundRobin, dif_neg hmore, List.flatten_cons, List.filter_append, hrest, hheads]
      cases stream with
      | nil => rfl
      | cons a stream =>
          show [a].filter p ++ stream.filter p = _
          rw [← List.filter_append]
          rfl

end Nightfrost.RoundRobin
