import Nightfrost.ByteOrder

namespace Nightfrost.Tables

open ByteOrder

/-- A partition of an ordered key-value store: a finite map from byte strings,
scanned in lexicographic key order. -/
abbrev Table (V : Type) := Std.ExtTreeMap Bytes V

inductive Bound
  | included (key : Bytes)
  | excluded (key : Bytes)
  | unbounded
  deriving DecidableEq

def Bound.above : Bound → Bytes → Bool
  | .included k, a => (compare k a).isLE
  | .excluded k, a => compare k a == .lt
  | .unbounded, _ => true

def Bound.below : Bound → Bytes → Bool
  | .included k, a => (compare a k).isLE
  | .excluded k, a => compare a k == .lt
  | .unbounded, _ => true

variable {V W : Type}

def range (t : Table V) (lower upper : Bound) : List (Bytes × V) :=
  t.toList.filter (fun row => lower.above row.1 && upper.below row.1)

def scanPrefix (t : Table V) (p : Bytes) : List (Bytes × V) :=
  t.toList.filter (fun row => p.isPrefixOf row.1)

theorem ext_get {t u : Table V} (h : ∀ k : Bytes, t[k]? = u[k]?) : t = u :=
  Std.ExtTreeMap.ext_getElem? h

@[simp] theorem get_empty (k : Bytes) : (∅ : Table V)[k]? = none := by
  simp

@[simp] theorem get_insert (t : Table V) (k a : Bytes) (v : V) :
    (t.insert k v)[a]? = if k = a then some v else t[a]? := by
  simp [Std.ExtTreeMap.getElem?_insert]

@[simp] theorem get_erase (t : Table V) (k a : Bytes) :
    (t.erase k)[a]? = if k = a then none else t[a]? := by
  simp [Std.ExtTreeMap.getElem?_erase]

theorem mem_iff {t : Table V} {k : Bytes} : k ∈ t ↔ ∃ v, t[k]? = some v := by
  rw [Std.ExtTreeMap.mem_iff_isSome_getElem?, Option.isSome_iff_exists]

theorem mem_unit_iff {t : Table Unit} {k : Bytes} : k ∈ t ↔ t[k]? = some () := by
  rw [mem_iff]
  exact ⟨fun ⟨(), h⟩ => h, fun h => ⟨(), h⟩⟩

@[simp] theorem mem_insert {t : Table V} {k a : Bytes} {v : V} :
    a ∈ t.insert k v ↔ k = a ∨ a ∈ t := by
  simp [Std.ExtTreeMap.mem_insert]

@[simp] theorem mem_rows {t : Table V} {k : Bytes} {v : V} :
    (k, v) ∈ t.toList ↔ t[k]? = some v :=
  Std.ExtTreeMap.mem_toList_iff_getElem?_eq_some

theorem rows_sorted (t : Table V) :
    t.toList.Pairwise (fun a b => compare a.1 b.1 = .lt) :=
  Std.ExtTreeMap.ordered_keys_toList

theorem rows_nodup (t : Table V) : t.toList.Nodup :=
  (rows_sorted t).imp fun {a b} h he => by
    rw [he, Std.ReflOrd.compare_self] at h
    cases h

theorem mem_range {t : Table V} {lower upper : Bound} {row : Bytes × V} :
    row ∈ range t lower upper ↔
      t[row.1]? = some row.2 ∧ lower.above row.1 = true ∧ upper.below row.1 = true := by
  simp [range, List.mem_filter, ← mem_rows]

theorem mem_scanPrefix {t : Table V} {p : Bytes} {row : Bytes × V} :
    row ∈ scanPrefix t p ↔ t[row.1]? = some row.2 ∧ p <+: row.1 := by
  simp [scanPrefix, List.mem_filter, ← mem_rows]

theorem range_sorted (t : Table V) (lower upper : Bound) :
    (range t lower upper).Pairwise (fun a b => compare a.1 b.1 = .lt) :=
  (rows_sorted t).filter _

theorem scanPrefix_sorted (t : Table V) (p : Bytes) :
    (scanPrefix t p).Pairwise (fun a b => compare a.1 b.1 = .lt) :=
  (rows_sorted t).filter _

theorem eq_of_sorted {α : Type} {r : α → α → Prop} (hirr : ∀ a, ¬ r a a)
    (htrans : ∀ a b c, r a b → r b c → r a c) {xs ys : List α}
    (hx : xs.Pairwise r) (hy : ys.Pairwise r) (h : ∀ a, a ∈ xs ↔ a ∈ ys) : xs = ys := by
  have hnodup {zs : List α} (hz : zs.Pairwise r) : zs.Nodup :=
    List.Pairwise.imp (fun {a b} hab (he : a = b) => hirr a (by rwa [← he] at hab)) hz
  apply List.Perm.eq_of_pairwise _ hx hy
  · exact (List.perm_ext_iff_of_nodup (hnodup hx) (hnodup hy)).mpr h
  · intro a b _ _ hab hba
    exact absurd (htrans a b a hab hba) (hirr a)

theorem rows_eq_of_sorted {rows rows' : List (Bytes × V)}
    (hs : rows.Pairwise (fun a b => compare a.1 b.1 = .lt))
    (hs' : rows'.Pairwise (fun a b => compare a.1 b.1 = .lt))
    (h : ∀ row, row ∈ rows ↔ row ∈ rows') : rows = rows' := by
  refine eq_of_sorted (r := fun a b => compare a.1 b.1 = .lt) ?_ ?_ hs hs' h
  · intro a
    simp [Std.ReflOrd.compare_self]
  · intro a b c
    exact Std.TransCmp.lt_trans

section Sum

def sumOf (t : Table V) (f : V → Nat) : Nat := (t.toList.map (fun row => f row.2)).sum

theorem sumOf_eq_erase {t : Table V} {k : Bytes} {v : V} (h : t[k]? = some v) (f : V → Nat) :
    sumOf t f = f v + sumOf (t.erase k) f := by
  have hp : t.toList.Perm ((k, v) :: (t.erase k).toList) := by
    apply (List.perm_ext_iff_of_nodup (rows_nodup t) _).mpr
    · rintro ⟨a, w⟩
      by_cases hk : k = a
      · subst hk
        simp [h, eq_comm]
      · simp [hk, Ne.symm hk]
    · refine List.nodup_cons.mpr ⟨?_, rows_nodup _⟩
      simp
  simpa [sumOf] using (hp.map (fun row => f row.2)).sum_eq

theorem sumOf_insert (t : Table V) (k : Bytes) (v : V) (f : V → Nat) :
    sumOf (t.insert k v) f = f v + sumOf (t.erase k) f := by
  rw [sumOf_eq_erase (k := k) (v := v) (by simp)]
  congr 2
  apply ext_get
  intro a
  by_cases hk : k = a <;> simp [hk]

theorem sumOf_insert_new {t : Table V} {k : Bytes} (h : t[k]? = none) (v : V) (f : V → Nat) :
    sumOf (t.insert k v) f = f v + sumOf t f := by
  rw [sumOf_insert]
  congr 2
  apply ext_get
  intro a
  by_cases hk : k = a
  · subst hk; simp [h]
  · simp [hk]

theorem sumOf_replace {t : Table V} {k : Bytes} {v : V} (h : t[k]? = some v) (w : V) (f : V → Nat) :
    sumOf (t.insert k w) f + f v = sumOf t f + f w := by
  rw [sumOf_insert, sumOf_eq_erase h]
  omega

end Sum

section Indexed

/-- The table holds exactly the entries of a list, under their positions as
big-endian `u64` keys. -/
structure Indexed (t : Table V) (entries : List V) : Prop where
  bound : entries.length ≤ 2 ^ 64
  get : ∀ i, i < 2 ^ 64 → t[be 8 i]? = entries[i]?
  key : ∀ k v, t[k]? = some v → ∃ i, i < entries.length ∧ k = be 8 i

theorem Indexed.empty : Indexed (∅ : Table V) [] :=
  ⟨by simp, by simp, by simp⟩

theorem Indexed.push {t : Table V} {entries : List V} (h : Indexed t entries) (v : V)
    (hb : entries.length < 2 ^ 64) :
    Indexed (t.insert (be 8 entries.length) v) (entries ++ [v]) := by
  refine ⟨by simpa using hb, ?_, ?_⟩
  · intro i hi
    rw [get_insert]
    split
    · rename_i he
      have := be_injective (w := 8) (by omega) hi he
      subst this
      simp
    · rename_i he
      have hne : i ≠ entries.length := fun h => he (h ▸ rfl)
      rw [h.get i hi]
      rcases Nat.lt_or_gt_of_ne hne with hlt | hgt
      · rw [List.getElem?_append_left hlt]
      · rw [List.getElem?_eq_none (by omega), List.getElem?_eq_none (by simp; omega)]
  · intro k w hk
    rw [get_insert] at hk
    split at hk
    · rename_i he
      exact ⟨entries.length, by simp, he.symm⟩
    · obtain ⟨i, hi, rfl⟩ := h.key k w hk
      exact ⟨i, by simp; omega, rfl⟩

theorem Indexed.get_lt {t : Table V} {entries : List V} (h : Indexed t entries) {i : Nat}
    (hi : i < entries.length) : t[be 8 i]? = some entries[i] := by
  rw [h.get i (by have := h.bound; omega), List.getElem?_eq_getElem hi]

theorem Indexed.get_iff {t : Table V} {entries : List V} (h : Indexed t entries) {k : Bytes} {v : V} :
    t[k]? = some v ↔ ∃ i, entries[i]? = some v ∧ k = be 8 i := by
  constructor
  · intro hk
    obtain ⟨i, hi, rfl⟩ := h.key k v hk
    exact ⟨i, by rw [← h.get i (by have := h.bound; omega), hk], rfl⟩
  · rintro ⟨i, hi, rfl⟩
    obtain ⟨hlt, rfl⟩ := List.getElem?_eq_some_iff.mp hi
    exact h.get_lt hlt

/-- A scan of the whole table yields the entries in their order. -/
theorem Indexed.rows {t : Table V} {entries : List V} (h : Indexed t entries) :
    t.toList = entries.zipIdx.map (fun e => (be 8 e.2, e.1)) := by
  apply rows_eq_of_sorted (rows_sorted t)
  · rw [List.pairwise_map, List.pairwise_iff_getElem]
    intro i j hi hj hij
    simp only [List.length_zipIdx] at hi hj
    have hb := h.bound
    simp only [List.getElem_zipIdx, Nat.zero_add]
    rw [compare_be (by omega) (by omega)]
    exact Nat.compare_eq_lt.mpr hij
  · rintro ⟨k, v⟩
    rw [mem_rows, h.get_iff]
    simp only [List.mem_map, Prod.mk.injEq, Prod.exists, List.mk_mem_zipIdx_iff_getElem?]
    constructor
    · rintro ⟨i, hi, rfl⟩
      exact ⟨v, i, hi, rfl, rfl⟩
    · rintro ⟨w, i, hi, rfl, rfl⟩
      exact ⟨i, hi, rfl⟩

/-- A set of keys files a list: its keys are those that the entries ask for at
their positions. -/
def Files (filed : Bytes → Prop) (entries : List V) (keys : V → Nat → List Bytes) : Prop :=
  ∀ k, filed k ↔ ∃ i v, entries[i]? = some v ∧ k ∈ keys v i

theorem Files.push {filed filed' : Bytes → Prop} {entries : List V} {keys : V → Nat → List Bytes}
    (h : Files filed entries keys) {v : V}
    (hf : ∀ k, filed' k ↔ filed k ∨ k ∈ keys v entries.length) :
    Files filed' (entries ++ [v]) keys := by
  intro k
  rw [hf, h]
  constructor
  · rintro (⟨i, w, hi, hk⟩ | hk)
    · exact ⟨i, w, by rwa [List.getElem?_append_left (List.getElem?_eq_some_iff.mp hi).1], hk⟩
    · exact ⟨entries.length, v, by simp, hk⟩
  · rintro ⟨i, w, hi, hk⟩
    rcases Nat.lt_trichotomy i entries.length with hlt | rfl | hgt
    · exact .inl ⟨i, w, by rwa [List.getElem?_append_left hlt] at hi, hk⟩
    · obtain rfl : v = w := by simpa using hi
      exact .inr hk
    · rw [List.getElem?_eq_none (by simp; omega)] at hi
      cases hi

/-- A table without values that is a secondary index of a list. -/
def IndexOf (t : Table Unit) (entries : List V) (keys : V → Nat → List Bytes) : Prop :=
  Files (fun k => k ∈ t) entries keys

theorem IndexOf.empty (keys : V → Nat → List Bytes) : IndexOf (∅ : Table Unit) [] keys := by
  simp [IndexOf, Files]

theorem IndexOf.push {t t' : Table Unit} {entries : List V} {keys : V → Nat → List Bytes}
    (h : IndexOf t entries keys) {v : V}
    (ht : ∀ k : Bytes, k ∈ t' ↔ k ∈ t ∨ k ∈ keys v entries.length) :
    IndexOf t' (entries ++ [v]) keys :=
  Files.push h ht

end Indexed

end Nightfrost.Tables
