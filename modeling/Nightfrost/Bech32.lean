import Mathlib

namespace Nightfrost.Bech32

section Symbols

def alphabet : List Char :=
  ['q', 'p', 'z', 'r', 'y', '9', 'x', '8', 'g', 'f', '2', 't', 'v', 'd', 'w', '0',
    's', '3', 'j', 'n', '5', '4', 'k', 'h', 'c', 'e', '6', 'm', 'u', 'a', '7', 'l']

def symbol (v : Fin 32) : Char := alphabet.get v

def symbolValue (c : Char) : Option (Fin 32) := alphabet.finIdxOf? c

theorem symbolValue_symbol : ∀ v, symbolValue (symbol v) = some v := by decide

theorem symbol_ne_separator : ∀ v, symbol v ≠ '1' := by decide

theorem mapM_symbol (values : List (Fin 32)) : (values.map symbol).mapM symbolValue = some values := by
  induction values with
  | nil => rfl
  | cons v values ih =>
      rw [List.map_cons, List.mapM_cons, symbolValue_symbol, ih]
      rfl

end Symbols

section Checksum

def generator : List Nat := [0x3b6a57b2, 0x26508e6d, 0x1ea119fa, 0x3d4233dd, 0x2a1462b3]

/-- The remainder after one more symbol. -/
def polymodStep (checksum value : Nat) : Nat :=
  generator.zipIdx.foldl (fun c g => if (checksum >>> 25).testBit g.2 then c ^^^ g.1 else c)
    (((checksum % 2 ^ 25) <<< 5) ^^^ value)

def polymod (values : List Nat) : Nat := values.foldl polymodStep 1

/-- The human-readable part as it enters the checksum. -/
def expand (hrp : List Char) : List Nat :=
  hrp.map (fun c => c.toNat >>> 5) ++ 0 :: hrp.map (fun c => c.toNat % 32)

/-- What the two variants of the format leave as the remainder. -/
def constants : List Nat := [1, 0x2bc830a3]

end Checksum

section Strings

structure Parts where
  hrp : List Char
  payload : List (Fin 32)
  checksum : List (Fin 32)
  deriving DecidableEq

def Parts.values (parts : Parts) : List (Fin 32) := parts.payload ++ parts.checksum

/-- A text is a string of the format, and these are its parts. -/
@[mk_iff]
structure Spells (text : List Char) (parts : Parts) : Prop where
  length : text.length ≤ 90
  sameCase : text.any Char.isUpper = false ∨ text.any Char.isLower = false
  chars : text.map Char.toLower = parts.hrp ++ '1' :: parts.values.map symbol
  hrp_ne : parts.hrp ≠ []
  printable : ∀ c ∈ parts.hrp, 33 ≤ c.toNat ∧ c.toNat ≤ 126
  checksum_length : parts.checksum.length = 6
  remainder : polymod (expand parts.hrp ++ parts.values.map Fin.val) ∈ constants

instance (text : List Char) (parts : Parts) : Decidable (Spells text parts) :=
  decidable_of_iff _ (spells_iff text parts).symm

def split (text : List Char) : List Char × List Char :=
  ((text.rdropWhile (· ≠ '1')).dropLast, text.rtakeWhile (· ≠ '1'))

theorem split_append {hrp data : List Char} (h : '1' ∉ data) : split (hrp ++ '1' :: data) = (hrp, data) := by
  have hdata : ∀ c ∈ data.reverse, decide (c ≠ '1') = true := by
    intro c hc
    refine decide_eq_true fun he => h ?_
    rw [← he]
    exact List.mem_reverse.mp hc
  have hreverse : (hrp ++ '1' :: data).reverse = data.reverse ++ '1' :: hrp.reverse := by simp
  have hdrop : (hrp ++ '1' :: data).rdropWhile (· ≠ '1') = hrp ++ ['1'] := by
    rw [List.rdropWhile, hreverse, List.dropWhile_append_of_pos hdata]
    simp
  have htake : (hrp ++ '1' :: data).rtakeWhile (· ≠ '1') = data := by
    rw [List.rtakeWhile, hreverse, List.takeWhile_append_of_pos hdata]
    simp
  rw [split, hdrop, htake, List.dropLast_concat]

def decode (text : List Char) : Option Parts := do
  let pieces := split (text.map Char.toLower)
  let values ← pieces.2.mapM symbolValue
  let parts : Parts := ⟨pieces.1, values.take (values.length - 6), values.drop (values.length - 6)⟩
  if Spells text parts then some parts else none

theorem decode_iff {text : List Char} {parts : Parts} : decode text = some parts ↔ Spells text parts := by
  constructor
  · intro h
    rw [decode] at h
    obtain ⟨values, -, h⟩ := Option.bind_eq_some_iff.mp h
    obtain ⟨hspells, hparts⟩ := Option.ite_none_right_eq_some.mp h
    rw [← Option.some.inj hparts]
    exact hspells
  · intro h
    have hsep : '1' ∉ parts.values.map symbol := by
      intro hmem
      obtain ⟨v, -, hv⟩ := List.mem_map.mp hmem
      exact symbol_ne_separator v hv
    have hvalues : ⟨parts.hrp, parts.values.take (parts.values.length - 6),
        parts.values.drop (parts.values.length - 6)⟩ = parts := by
      have hlength : parts.values.length - 6 = parts.payload.length := by
        rw [Parts.values, List.length_append, h.checksum_length, Nat.add_sub_cancel]
      rw [hlength, Parts.values, List.take_left, List.drop_left]
    rw [decode]
    simp only [h.chars, split_append hsep, mapM_symbol, Option.bind_eq_bind, Option.bind_some, hvalues]
    exact if_pos h

end Strings

section Bits

def bits (width n : Nat) : List Bool := (List.range width).map (fun i => n.testBit (width - 1 - i))

theorem bits_length (width n : Nat) : (bits width n).length = width := by simp [bits]

def byteOf (octet : List Bool) : UInt8 := UInt8.ofNat (octet.foldl (fun n b => 2 * n + b.toNat) 0)

/-- The bytes that bits make, without the bits that are left over. -/
def packBits : List Bool → List UInt8
  | a :: b :: c :: d :: e :: f :: g :: h :: rest => byteOf [a, b, c, d, e, f, g, h] :: packBits rest
  | _ => []

theorem bits_byteOf : ∀ a b c d e f g h : Bool,
    bits 8 (byteOf [a, b, c, d, e, f, g, h]).toNat = [a, b, c, d, e, f, g, h] := by decide

theorem length_lt_of_short {stream : List Bool}
    (h : ∀ a b c d e f g h rest, stream = a :: b :: c :: d :: e :: f :: g :: h :: rest → False) :
    stream.length < 8 := by
  rcases stream with _ | ⟨a, _ | ⟨b, _ | ⟨c, _ | ⟨d, _ | ⟨e, _ | ⟨f, _ | ⟨g, _ | ⟨i, rest⟩⟩⟩⟩⟩⟩⟩⟩
  case cons.cons.cons.cons.cons.cons.cons.cons => exact (h a b c d e f g i rest rfl).elim
  all_goals simp

theorem packBits_length (stream : List Bool) : (packBits stream).length = stream.length / 8 := by
  induction stream using packBits.induct with
  | case1 a b c d e f g h rest ih =>
      simp only [packBits, List.length_cons, ih]
      omega
  | case2 stream hshort =>
      have hlt := length_lt_of_short hshort
      rw [packBits, List.length_nil, Nat.div_eq_of_lt hlt]
      exact hshort

theorem flatMap_packBits (stream : List Bool) :
    (packBits stream).flatMap (fun b => bits 8 b.toNat) = stream.take (8 * (packBits stream).length) := by
  induction stream using packBits.induct with
  | case1 a b c d e f g h rest ih =>
      simp only [packBits, List.flatMap_cons, bits_byteOf, ih, List.length_cons, Nat.mul_add,
        Nat.mul_one, List.cons_append, List.nil_append, List.take_succ_cons]
  | case2 stream hshort =>
      rw [packBits]
      · rfl
      · exact hshort

theorem flatMap_length {α β : Type} {f : α → List β} {width : Nat} (h : ∀ x, (f x).length = width)
    (l : List α) : (l.flatMap f).length = width * l.length := by
  induction l with
  | nil => rfl
  | cons x l ih => simp [h, ih, Nat.mul_succ, Nat.add_comm]

theorem drop_flatMap {α β : Type} {f : α → List β} {width : Nat} (h : ∀ x, (f x).length = width)
    (l : List α) (i : Nat) : (l.drop i).flatMap f = (l.flatMap f).drop (width * i) := by
  induction i generalizing l with
  | zero => simp
  | succ i ih =>
      cases l with
      | nil => simp
      | cons x l =>
          rw [List.drop_succ_cons, ih, List.flatMap_cons, Nat.mul_succ, Nat.add_comm, ← List.drop_drop]
          have hx : (f x ++ l.flatMap f).drop width = l.flatMap f := by
            rw [← h x, List.drop_left]
          rw [hx]

def Parts.stream (parts : Parts) : List Bool := parts.payload.flatMap (fun v => bits 5 v.val)

def Parts.bytes (parts : Parts) : List UInt8 := packBits parts.stream

end Bits

end Nightfrost.Bech32
