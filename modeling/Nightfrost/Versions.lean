import Mathlib

namespace Nightfrost.Versions

variable {K V : Type}

structure Version (K V : Type) where
  key : K
  value : V
  seqno : Nat

def highest (versions : List (Version K V)) : Option Nat := (versions.map (·.seqno)).max?

def newer [DecidableEq K] (key : K) (best : Option (Version K V)) (version : Version K V) :
    Option (Version K V) :=
  if version.key = key ∧ best.all (·.seqno ≤ version.seqno) then some version else best

/-- The version of a key with the highest number, the later of two with the same. -/
def newest [DecidableEq K] (versions : List (Version K V)) (key : K) : Option (Version K V) :=
  versions.foldl (newer key) none

variable {versions more : List (Version K V)} {version : Version K V} {n : Nat}

theorem highest_eq_some : highest versions = some n ↔
    (∃ v ∈ versions, v.seqno = n) ∧ ∀ v ∈ versions, v.seqno ≤ n := by
  rw [highest, List.max?_eq_some_iff]
  simp only [List.mem_map, forall_exists_index, and_imp, forall_apply_eq_imp_iff₂]

theorem highest_eq_none : highest versions = none ↔ versions = [] := by
  rw [highest, List.max?_eq_none_iff, List.map_eq_nil_iff]

@[simp] theorem highest_nil : highest ([] : List (Version K V)) = none := rfl

theorem le_highest (h : version ∈ versions) : ∃ n, highest versions = some n ∧ version.seqno ≤ n := by
  cases hn : highest versions with
  | none => exact absurd h (highest_eq_none.mp hn ▸ List.not_mem_nil)
  | some n => exact ⟨n, rfl, (highest_eq_some.mp hn).2 version h⟩

theorem highest_concat (versions : List (Version K V)) (version : Version K V) :
    highest (versions ++ [version]) = some ((highest versions).elim version.seqno (max · version.seqno)) := by
  rw [highest_eq_some]
  cases hn : highest versions with
  | none =>
      obtain rfl := highest_eq_none.mp hn
      simp
  | some n =>
      obtain ⟨⟨v, hv, rfl⟩, hle⟩ := highest_eq_some.mp hn
      constructor
      · rcases Nat.le_total v.seqno version.seqno with h | h
        · exact ⟨version, by simp, (Nat.max_eq_right h).symm⟩
        · exact ⟨v, by simp [hv], (Nat.max_eq_left h).symm⟩
      · intro w hw
        rcases List.mem_append.mp hw with hw | hw
        · exact Nat.le_trans (hle w hw) (Nat.le_max_left _ _)
        · obtain rfl := List.mem_singleton.mp hw
          exact Nat.le_max_right _ _

section Newest

variable [DecidableEq K] {key : K}

theorem newest_mem (h : newest versions key = some version) :
    version ∈ versions := by
  induction versions using List.reverseRecOn with
  | nil => cases h
  | append_singleton versions last ih =>
      rw [newest, List.foldl_append, List.foldl_cons, List.foldl_nil, newer] at h
      split at h
      · cases h
        exact List.mem_append_right _ List.mem_cons_self
      · exact List.mem_append_left _ (ih h)

/-- Where the numbers never fall, the newest version is the last. -/
theorem newest_concat (hle : ∀ v ∈ versions, v.seqno ≤ version.seqno) :
    newest (versions ++ [version]) key = if version.key = key then some version else newest versions key := by
  rw [newest, List.foldl_append, List.foldl_cons, List.foldl_nil, newer]
  have hall : (versions.foldl (newer key) none).all (·.seqno ≤ version.seqno) := by
    cases hbest : versions.foldl (newer key) none with
    | none => rfl
    | some best => exact decide_eq_true (hle best (newest_mem hbest))
  simp only [hall, and_true]
  rfl

end Newest

end Nightfrost.Versions
