import Nightfrost.Lookups

namespace Nightfrost.HexText

open ByteOrder Domain Endpoints Lookups

def nibbles (bytes : Bytes) : List Nat := bytes.flatMap (fun b => [b.toNat / 16, b.toNat % 16])

def decimal (digits : List Nat) : Nat := digits.foldl (fun n d => 10 * n + d) 0

section Digits

theorem hexEncode_toList (bytes : Bytes) : (hexEncode bytes).toList = (nibbles bytes).map hexDigit := by
  rw [hexEncode, nibbles]
  rw [String.toList_ofList, List.map_flatMap]
  rfl

theorem nibbles_lt (bytes : Bytes) : ∀ n ∈ nibbles bytes, n < 16 := by
  intro n hn
  obtain ⟨b, -, hb⟩ := List.mem_flatMap.mp hn
  have hlt := b.toNat_lt
  simp only [List.mem_cons, List.not_mem_nil, or_false] at hb
  rcases hb with rfl | rfl <;> omega

theorem nibbles_length (bytes : Bytes) : (nibbles bytes).length = 2 * bytes.length := by
  induction bytes with
  | nil => rfl
  | cons b bytes ih =>
      have hcons : nibbles (b :: bytes) = b.toNat / 16 :: b.toNat % 16 :: nibbles bytes := rfl
      rw [hcons, List.length_cons, List.length_cons, ih, List.length_cons]
      omega

theorem hexValue_hexDigit : ∀ n < 16, hexValue (hexDigit n) = some n := by decide

theorem isDigit_hexDigit : ∀ n < 16, (hexDigit n).isDigit = decide (n < 10) := by decide

theorem hexDigit_toNat : ∀ n < 10, (hexDigit n).toNat - '0'.toNat = n := by decide

theorem hexDigit_ne_plus : ∀ n < 16, hexDigit n ≠ '+' := by decide

theorem hexDecode_digits (bytes : Bytes) : hexDecode ((nibbles bytes).map hexDigit) = some bytes := by
  induction bytes with
  | nil => rfl
  | cons b bytes ih =>
      have hcons : nibbles (b :: bytes) = b.toNat / 16 :: b.toNat % 16 :: nibbles bytes := rfl
      have hlt := b.toNat_lt
      have hbyte : UInt8.ofNat (b.toNat / 16 * 16 + b.toNat % 16) = b := by
        rw [Nat.div_add_mod']
        exact UInt8.ofNat_toNat
      rw [hcons, List.map_cons, List.map_cons, hexDecode, hexValue_hexDigit _ (by omega),
        hexValue_hexDigit _ (by omega), ih]
      show some (_ :: bytes) = _
      rw [hbyte]

end Digits

/-- The crate reads the text that the API prints of some bytes. -/
def ReadsHex (libs : AddressLibs) : Prop := ∀ bytes, libs.hexDecode (hexEncode bytes) = some bytes

theorem hexLibs_readsHex : ReadsHex hexLibs := by
  intro bytes
  show hexDecode (hexEncode bytes).toList = some bytes
  rw [hexEncode_toList, hexDecode_digits]

section Decimal

theorem decimal_hexDigits {digits : List Nat} (h : ∀ d ∈ digits, d < 10) (start : Nat) :
    (digits.map hexDigit).foldl (fun n c => 10 * n + (c.toNat - '0'.toNat)) start =
      digits.foldl (fun n d => 10 * n + d) start := by
  induction digits generalizing start with
  | nil => rfl
  | cons d digits ih =>
      rw [List.map_cons, List.foldl_cons, List.foldl_cons, hexDigit_toNat d (h d List.mem_cons_self)]
      exact ih (fun e he => h e (List.mem_cons_of_mem _ he)) _

theorem parseU64_unsigned {id : String} {chars : List Char} (hid : id.toList = chars)
    (hsign : chars.head? ≠ some '+') :
    parseU64 id = if chars.isEmpty = true ∨ ¬ chars.all Char.isDigit = true then none
      else if chars.foldl (fun n c => 10 * n + (c.toNat - '0'.toNat)) 0 < 2 ^ 64 then
        some (chars.foldl (fun n c => 10 * n + (c.toNat - '0'.toNat)) 0)
      else none := by
  rw [parseU64]
  rw [hid]
  dsimp only
  split
  · exact absurd rfl hsign
  · rfl

theorem parseU64_hexEncode {bytes : Bytes} (hne : bytes ≠ []) :
    parseU64 (hexEncode bytes) =
      if (∀ d ∈ nibbles bytes, d < 10) ∧ decimal (nibbles bytes) < 2 ^ 64 then
        some (decimal (nibbles bytes))
      else none := by
  have hlt := nibbles_lt bytes
  obtain ⟨b, rest, rfl⟩ := List.exists_cons_of_ne_nil hne
  have hsign : ((nibbles (b :: rest)).map hexDigit).head? ≠ some '+' := by
    have hfirst := hexDigit_ne_plus (b.toNat / 16) (hlt _ List.mem_cons_self)
    exact fun he => hfirst (Option.some.inj he)
  have hempty : ((nibbles (b :: rest)).map hexDigit).isEmpty = false := rfl
  have hall : ((nibbles (b :: rest)).map hexDigit).all Char.isDigit = true ↔
      ∀ d ∈ nibbles (b :: rest), d < 10 := by
    rw [List.all_map, List.all_eq_true]
    refine forall_congr' fun d => forall_congr' fun hd => ?_
    rw [Function.comp_apply, isDigit_hexDigit d (hlt d hd), decide_eq_true_eq]
  rw [parseU64_unsigned (hexEncode_toList _) hsign]
  by_cases hdigits : ∀ d ∈ nibbles (b :: rest), d < 10
  · have hnot : ¬ (((nibbles (b :: rest)).map hexDigit).isEmpty = true ∨
        ¬ ((nibbles (b :: rest)).map hexDigit).all Char.isDigit = true) := by
      rw [hempty, hall]
      simp only [Bool.false_eq_true, false_or]
      exact not_not.mpr hdigits
    rw [if_neg hnot, decimal_hexDigits hdigits]
    by_cases hfits : decimal (nibbles (b :: rest)) < 2 ^ 64
    · exact (if_pos hfits).trans (if_pos ⟨hdigits, hfits⟩).symm
    · exact (if_neg hfits).trans (if_neg fun hboth => hfits hboth.2).symm
  · rw [if_pos (.inr fun hdigits' => hdigits (hall.mp hdigits')), if_neg fun hboth => hdigits hboth.1]

theorem parseU64_toString {n : Nat} (h : n < 2 ^ 64) : parseU64 (toString n) = some n := by
  have hchars : (toString n).toList = Nat.toDigits 10 n := Nat.toList_repr
  have hdigit : ∀ c ∈ Nat.toDigits 10 n, c.isDigit = true := fun c hc =>
    Nat.isDigit_of_mem_toDigits (by decide) (by decide) hc
  have hsign : (Nat.toDigits 10 n).head? ≠ some '+' := by
    intro he
    have hplus := hdigit '+' (List.mem_of_mem_head? he)
    cases hplus
  have hnot : ¬ ((Nat.toDigits 10 n).isEmpty = true ∨ ¬ (Nat.toDigits 10 n).all Char.isDigit = true) := by
    rw [List.isEmpty_iff, List.all_eq_true]
    rintro (hnil | hall)
    · exact Nat.toDigits_ne_nil hnil
    · exact hall hdigit
  have hvalue : (Nat.toDigits 10 n).foldl (fun n c => 10 * n + (c.toNat - '0'.toNat)) 0 = n :=
    Nat.ofDigitChars_ten_toDigits
  rw [parseU64_unsigned hchars hsign, if_neg hnot, hvalue, if_pos h]

end Decimal

end Nightfrost.HexText
