import Mathlib

namespace Nightfrost.ByteOrder

abbrev Bytes := List UInt8

instance lawfulBytes : LawfulBEq Bytes := inferInstance

theorem zero_lt_u64 : (0 : Nat) < 2 ^ 64 := by decide

theorem one_lt_u64 : (1 : Nat) < 2 ^ 64 := by decide

theorem two_lt_u64 : (2 : Nat) < 2 ^ 64 := by decide

/-- The `w` low bytes of a number, most significant first. -/
def be : Nat → Nat → Bytes
  | 0, _ => []
  | w + 1, n => UInt8.ofNat (n / 256 ^ w) :: be w (n % 256 ^ w)

def fromBe (bytes : Bytes) : Nat := bytes.foldl (fun n b => n * 256 + b.toNat) 0

def fromLe (bytes : Bytes) : Nat := fromBe bytes.reverse

@[simp] theorem be_length (w n : Nat) : (be w n).length = w := by
  induction w generalizing n with
  | zero => rfl
  | succ w ih => simp [be, ih]

theorem digit_lt {w n : Nat} (h : n < 256 ^ (w + 1)) : n / 256 ^ w < 256 := by
  rw [Nat.div_lt_iff_lt_mul (by positivity)]
  rwa [Nat.pow_succ, Nat.mul_comm] at h

theorem foldl_be {w n : Nat} (h : n < 256 ^ w) (start : Nat) :
    (be w n).foldl (fun n b => n * 256 + b.toNat) start = start * 256 ^ w + n := by
  induction w generalizing n start with
  | zero => simp_all [be]
  | succ w ih =>
      have hd : (UInt8.ofNat (n / 256 ^ w)).toNat = n / 256 ^ w := by
        simpa using Nat.mod_eq_of_lt (digit_lt h)
      have hr : n % 256 ^ w < 256 ^ w := Nat.mod_lt _ (by positivity)
      rw [be, List.foldl_cons, ih hr, hd]
      calc (start * 256 + n / 256 ^ w) * 256 ^ w + n % 256 ^ w
          = start * 256 ^ (w + 1) + (256 ^ w * (n / 256 ^ w) + n % 256 ^ w) := by ring
        _ = start * 256 ^ (w + 1) + n := by rw [Nat.div_add_mod]

theorem fromBe_be {w n : Nat} (h : n < 256 ^ w) : fromBe (be w n) = n := by
  simpa [fromBe] using foldl_be h 0

theorem foldl_fromBe (bytes : Bytes) (start : Nat) :
    bytes.foldl (fun n b => n * 256 + b.toNat) start = start * 256 ^ bytes.length + fromBe bytes := by
  induction bytes generalizing start with
  | nil => simp [fromBe]
  | cons b bytes ih =>
      rw [fromBe, List.foldl_cons, List.foldl_cons, ih, ih (0 * 256 + b.toNat), List.length_cons]
      ring

theorem fromBe_cons (b : UInt8) (bytes : Bytes) :
    fromBe (b :: bytes) = b.toNat * 256 ^ bytes.length + fromBe bytes := by
  have h := foldl_fromBe bytes b.toNat
  simpa [fromBe] using h

theorem fromBe_lt_length (bytes : Bytes) : fromBe bytes < 256 ^ bytes.length := by
  induction bytes with
  | nil => simp [fromBe]
  | cons b bytes ih =>
      have hb := b.toNat_lt
      rw [fromBe_cons, List.length_cons, Nat.pow_succ, Nat.mul_comm _ 256]
      calc b.toNat * 256 ^ bytes.length + fromBe bytes
          < b.toNat * 256 ^ bytes.length + 256 ^ bytes.length := by omega
        _ = (b.toNat + 1) * 256 ^ bytes.length := by ring
        _ ≤ 256 * 256 ^ bytes.length := Nat.mul_le_mul_right _ (by omega)

theorem fromBe_lt {w : Nat} {bytes : Bytes} (h : bytes.length ≤ w) : fromBe bytes < 256 ^ w :=
  Nat.lt_of_lt_of_le (fromBe_lt_length bytes) (Nat.pow_le_pow_right (by decide) h)

theorem be_fromBe {w : Nat} {bytes : Bytes} (h : bytes.length = w) : be w (fromBe bytes) = bytes := by
  subst h
  induction bytes with
  | nil => rfl
  | cons b bytes ih =>
      have hlt := fromBe_lt_length bytes
      have hdiv : (b.toNat * 256 ^ bytes.length + fromBe bytes) / 256 ^ bytes.length = b.toNat := by
        rw [Nat.mul_comm, Nat.mul_add_div (by positivity), Nat.div_eq_of_lt hlt, Nat.add_zero]
      have hmod : (b.toNat * 256 ^ bytes.length + fromBe bytes) % 256 ^ bytes.length = fromBe bytes := by
        rw [Nat.mul_comm, Nat.mul_add_mod, Nat.mod_eq_of_lt hlt]
      rw [fromBe_cons, List.length_cons, be, hdiv, hmod, ih, UInt8.ofNat_toNat]

theorem be_injective {w m n : Nat} (hm : m < 256 ^ w) (hn : n < 256 ^ w)
    (h : be w m = be w n) : m = n := by
  rw [← fromBe_be hm, h, fromBe_be hn]

@[simp] theorem compare_append_left (p a b : Bytes) :
    compare (p ++ a) (p ++ b) = compare a b := by
  induction p with
  | nil => rfl
  | cons d p ih => simp [List.compare_cons_cons, Std.ReflOrd.compare_self, ih]

theorem compare_digits {m n : Nat} (hm : m < 256) (hn : n < 256) :
    compare (UInt8.ofNat m) (UInt8.ofNat n) = compare m n := by
  have h : ∀ {i j : Nat}, i < 256 → j < 256 → (UInt8.ofNat i < UInt8.ofNat j ↔ i < j) := by
    intro i j hi hj
    simp [UInt8.lt_iff_toNat_lt, Nat.mod_eq_of_lt hi, Nat.mod_eq_of_lt hj]
  rcases Nat.lt_trichotomy m n with hlt | rfl | hlt
  · rw [Nat.compare_eq_lt.mpr hlt, Std.compare_eq_lt]
    exact (h hm hn).mpr hlt
  · rw [Std.ReflOrd.compare_self, Std.ReflOrd.compare_self]
  · rw [Nat.compare_eq_gt.mpr hlt, Std.compare_eq_gt]
    exact (h hn hm).mpr hlt

theorem compare_be {w m n : Nat} (hm : m < 256 ^ w) (hn : n < 256 ^ w) :
    compare (be w m) (be w n) = compare m n := by
  induction w generalizing m n with
  | zero =>
      obtain ⟨rfl, rfl⟩ : m = 0 ∧ n = 0 := by simpa using And.intro hm hn
      rfl
  | succ w ih =>
      have hpos : 0 < 256 ^ w := by positivity
      rw [be, be, List.compare_cons_cons, compare_digits (digit_lt hm) (digit_lt hn),
        ih (Nat.mod_lt _ hpos) (Nat.mod_lt _ hpos)]
      have hm' := Nat.div_add_mod m (256 ^ w)
      have hn' := Nat.div_add_mod n (256 ^ w)
      rcases Nat.lt_trichotomy (m / 256 ^ w) (n / 256 ^ w) with hlt | heq | hlt
      · rw [Nat.compare_eq_lt.mpr hlt, Nat.compare_eq_lt.mpr (Nat.lt_of_div_lt_div hlt)]
        rfl
      · rw [heq, Std.ReflOrd.compare_self, Ordering.eq_then]
        rw [heq] at hm'
        rcases Nat.lt_trichotomy (m % 256 ^ w) (n % 256 ^ w) with h | h | h
        · rw [Nat.compare_eq_lt.mpr h, Nat.compare_eq_lt.mpr (by omega)]
        · rw [Nat.compare_eq_eq.mpr h, Nat.compare_eq_eq.mpr (by omega)]
        · rw [Nat.compare_eq_gt.mpr h, Nat.compare_eq_gt.mpr (by omega)]
      · rw [Nat.compare_eq_gt.mpr hlt, Nat.compare_eq_gt.mpr (Nat.lt_of_div_lt_div hlt)]
        rfl

theorem isLE_append (p a : Bytes) : (compare p (p ++ a)).isLE := by
  have h := compare_append_left p [] a
  rw [List.append_nil] at h
  cases a <;> simp [h, Std.ReflOrd.compare_self, List.compare_nil_cons]

end Nightfrost.ByteOrder
