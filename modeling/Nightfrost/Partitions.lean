import Nightfrost.Tables

namespace Nightfrost.Partitions

open ByteOrder Tables

variable {P : Type} [DecidableEq P] {Val : P → Type}

/-- A keyspace of named partitions, each with its own type of values. -/
abbrev Keyspace (Val : P → Type) := (p : P) → Table (Val p)

structure Op (Val : P → Type) where
  part : P
  key : Bytes
  value : Option (Val part)

abbrev Batch (Val : P → Type) := List (Op Val)

def Op.put (p : P) (k : Bytes) (v : Val p) : Op Val := ⟨p, k, some v⟩

def Op.remove (p : P) (k : Bytes) : Op Val := ⟨p, k, none⟩

def writeTo {V : Type} (t : Table V) (k : Bytes) : Option V → Table V
  | some v => t.insert k v
  | none => t.erase k

def Op.apply (s : Keyspace Val) (o : Op Val) : Keyspace Val :=
  Function.update s o.part (writeTo (s o.part) o.key o.value)

/-- A batch is atomic: its operations take effect together, in their order,
so that the last operation on a key wins. -/
def commit (s : Keyspace Val) (batch : Batch Val) : Keyspace Val := batch.foldl Op.apply s

@[simp] theorem commit_nil (s : Keyspace Val) : commit s [] = s := rfl

@[simp] theorem commit_append (s : Keyspace Val) (b c : Batch Val) :
    commit s (b ++ c) = commit (commit s b) c :=
  List.foldl_append

@[simp] theorem commit_singleton (s : Keyspace Val) (o : Op Val) : commit s [o] = o.apply s := rfl

theorem commit_cons (s : Keyspace Val) (o : Op Val) (b : Batch Val) :
    commit s (o :: b) = commit (o.apply s) b := rfl

@[simp] theorem apply_put_same (s : Keyspace Val) (p : P) (k : Bytes) (v : Val p) :
    (Op.put p k v).apply s p = (s p).insert k v := by
  simp [Op.apply, Op.put, writeTo]

@[simp] theorem apply_remove_same (s : Keyspace Val) (p : P) (k : Bytes) :
    (Op.remove p k : Op Val).apply s p = (s p).erase k := by
  simp [Op.apply, Op.remove, writeTo]

theorem apply_other {s : Keyspace Val} {o : Op Val} {q : P} (h : q ≠ o.part) :
    o.apply s q = s q := by
  simp [Op.apply, Function.update_of_ne h]

@[simp] theorem apply_put_other (s : Keyspace Val) {p q : P} (h : q ≠ p) (k : Bytes) (v : Val p) :
    (Op.put p k v).apply s q = s q :=
  apply_other h

@[simp] theorem apply_remove_other (s : Keyspace Val) {p q : P} (h : q ≠ p) (k : Bytes) :
    (Op.remove p k : Op Val).apply s q = s q :=
  apply_other h

theorem commit_other {s : Keyspace Val} {b : Batch Val} {q : P} (h : ∀ o ∈ b, q ≠ o.part) :
    commit s b q = s q := by
  induction b generalizing s with
  | nil => rfl
  | cons o b ih =>
      rw [commit_cons, ih (fun o' ho => h o' (List.mem_cons_of_mem _ ho)),
        apply_other (h o List.mem_cons_self)]

theorem commit_keeps {I : Keyspace Val → Prop} {b : Batch Val}
    (h : ∀ o ∈ b, ∀ s, I s → I (o.apply s)) {s : Keyspace Val} (hs : I s) : I (commit s b) := by
  induction b generalizing s with
  | nil => exact hs
  | cons o b ih =>
      rw [commit_cons]
      exact ih (fun o ho => h o (List.mem_cons_of_mem _ ho)) (h o List.mem_cons_self s hs)

section Rows

variable {s s' : Keyspace Val} {p : P} {k : Bytes}

def Op.touches (p : P) (k : Bytes) (o : Op Val) : Bool := decide (o.part = p ∧ o.key = k)

theorem get_writeTo {V : Type} (t : Table V) (k a : Bytes) (v : Option V) :
    (writeTo t k v)[a]? = if k = a then v else t[a]? := by
  cases v with
  | some v => exact get_insert t k a v
  | none => exact get_erase t k a

theorem apply_part {o : Op Val} (h : s o.part = s' o.part) : o.apply s o.part = o.apply s' o.part := by
  rw [Op.apply, Op.apply, Function.update_self, Function.update_self, h]

theorem commit_part {b : Batch Val} (h : s p = s' p) : commit s b p = commit s' b p := by
  induction b generalizing s s' with
  | nil => exact h
  | cons o b ih =>
      rw [commit_cons, commit_cons]
      apply ih
      by_cases hp : p = o.part
      · subst hp
        exact apply_part h
      · rw [apply_other hp, apply_other hp, h]

theorem get_apply_of_touches {o : Op Val} (h : o.touches p k = true) :
    (o.apply s p)[k]? = (o.apply s' p)[k]? := by
  obtain ⟨rfl, rfl⟩ := of_decide_eq_true h
  rw [Op.apply, Op.apply, Function.update_self, Function.update_self, get_writeTo, get_writeTo,
    if_pos rfl, if_pos rfl]

theorem get_apply_of_not_touches {o : Op Val} (h : ¬ o.touches p k = true) :
    (o.apply s p)[k]? = (s p)[k]? := by
  by_cases hp : p = o.part
  · subst hp
    have hk : o.key ≠ k := fun hk => h (decide_eq_true ⟨rfl, hk⟩)
    rw [Op.apply, Function.update_self, get_writeTo, if_neg hk]
  · rw [apply_other hp]

theorem commit_row {b : Batch Val} (h : (s p)[k]? = (s' p)[k]?) :
    (commit s b p)[k]? = (commit s' b p)[k]? := by
  induction b generalizing s s' with
  | nil => exact h
  | cons o b ih =>
      rw [commit_cons, commit_cons]
      apply ih
      by_cases ho : o.touches p k = true
      · exact get_apply_of_touches ho
      · rw [get_apply_of_not_touches ho, get_apply_of_not_touches ho, h]

theorem commit_filter (s : Keyspace Val) (b : Batch Val) (p : P) (k : Bytes) :
    (commit s b p)[k]? = (commit s (b.filter (Op.touches p k)) p)[k]? := by
  induction b generalizing s with
  | nil => rfl
  | cons o b ih =>
      rw [commit_cons, List.filter_cons]
      split
      · rw [commit_cons]
        exact ih _
      · rename_i ho
        rw [← ih]
        exact commit_row (get_apply_of_not_touches ho)

theorem commit_touched {b : Batch Val} (h : ∃ o ∈ b, o.touches p k = true) :
    (commit s b p)[k]? = (commit s' b p)[k]? := by
  induction b generalizing s s' with
  | nil =>
      obtain ⟨o, ho, -⟩ := h
      cases ho
  | cons o b ih =>
      rw [commit_cons, commit_cons]
      by_cases ho : o.touches p k = true
      · exact commit_row (get_apply_of_touches ho)
      · obtain ⟨o', ho', htouches⟩ := h
        rcases List.mem_cons.mp ho' with rfl | hmem
        · exact absurd htouches ho
        · exact ih ⟨o', hmem, htouches⟩

end Rows

section Overlay

variable {V : Type}

def overlay (cache committed : Table V) (k : Bytes) : Option V := cache[k]?.or committed[k]?

/-- The cache holds every row in which the pending table differs from the
committed one, so that reading through it sees the pending writes. -/
def Mirrors (cache committed pending : Table V) : Prop :=
  ∀ k : Bytes, pending[k]? = overlay cache committed k

theorem Mirrors.start (t : Table V) : Mirrors ∅ t t := by
  intro k
  simp [overlay]

theorem Mirrors.insert {cache committed pending : Table V} (h : Mirrors cache committed pending)
    (k : Bytes) (v : V) : Mirrors (cache.insert k v) committed (pending.insert k v) := by
  intro a
  by_cases hk : k = a
  · simp [overlay, hk]
  · simpa [overlay, hk] using h a

end Overlay

end Nightfrost.Partitions
