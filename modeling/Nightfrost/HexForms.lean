import Nightfrost.Bech32
import Nightfrost.HexText
import Nightfrost.CurrentState

namespace Nightfrost.HexForms

open ByteOrder Domain Api Endpoints Lookups HexText CurrentState Bech32

/-- The crate takes exactly the strings of the format, with either checksum and any
human-readable part, and gives the whole bytes of their payload. -/
def ReadsBech32 (libs : AddressLibs) : Prop :=
  ∀ text, text.length ≤ 90 → ∀ data, libs.bech32Decode text = some data ↔
    ∃ parts, Spells text.toList parts ∧ parts.bytes = data

def IsBech32 (text : String) : Prop := ∃ parts, Spells text.toList parts

section Alignment

theorem bits_nibbles (bytes : Bytes) :
    (nibbles bytes).flatMap (bits 4) = bytes.flatMap (fun b => bits 8 b.toNat) := by
  have hbyte : ∀ n < 256, bits 4 (n / 16) ++ bits 4 (n % 16) = bits 8 n := by decide +kernel
  induction bytes with
  | nil => rfl
  | cons b bytes ih =>
      have hcons : nibbles (b :: bytes) = b.toNat / 16 :: b.toNat % 16 :: nibbles bytes := rfl
      rw [hcons, List.flatMap_cons, List.flatMap_cons, ih, List.flatMap_cons, ← List.append_assoc,
        hbyte _ b.toNat_lt]

/-- A string that gives the bytes whose text it is. -/
structure Fixed (bytes : Bytes) (parts : Parts) : Prop where
  spells : Spells ((nibbles bytes).map hexDigit) parts
  bytes_eq : parts.bytes = bytes

variable {bytes : Bytes} {parts : Parts}

theorem toLower_hexDigit : ∀ n < 16, (hexDigit n).toLower = hexDigit n := by decide

theorem hex_chars (h : Spells ((nibbles bytes).map hexDigit) parts) :
    (nibbles bytes).map hexDigit = parts.hrp ++ '1' :: parts.values.map symbol := by
  rw [← h.chars, List.map_map]
  exact List.map_congr_left fun n hn => (toLower_hexDigit n (nibbles_lt bytes n hn)).symm

theorem hex_length (h : Spells ((nibbles bytes).map hexDigit) parts) :
    2 * bytes.length = parts.hrp.length + parts.payload.length + 7 := by
  have hlength := congrArg List.length (hex_chars h)
  rw [List.length_map, nibbles_length, List.length_append, List.length_cons, List.length_map,
    Parts.values, List.length_append, h.checksum_length] at hlength
  omega

theorem parts_length (parts : Parts) : parts.bytes.length = 5 * parts.payload.length / 8 := by
  have hlength := packBits_length parts.stream
  rwa [Parts.stream, flatMap_length (fun v : Fin 32 => bits_length 5 v.val)] at hlength

theorem Fixed.lengths (h : Fixed bytes parts) : bytes.length = 5 * parts.payload.length / 8 :=
  (congrArg List.length h.bytes_eq.symm).trans (parts_length parts)

/-- Five digits of the text and four symbols of the payload hold the same bits. -/
theorem Fixed.aligned (h : Fixed bytes parts) (k : Nat) :
    ((nibbles bytes).drop (5 * k)).flatMap (bits 4) <+:
      (parts.payload.drop (4 * k)).flatMap (fun v => bits 5 v.val) := by
  have hdigits := drop_flatMap (bits_length 4) (nibbles bytes) (5 * k)
  have hsymbols := drop_flatMap (fun v : Fin 32 => bits_length 5 v.val) parts.payload (4 * k)
  have hwhole : (nibbles bytes).flatMap (bits 4) <+: parts.stream := by
    rw [bits_nibbles, ← h.bytes_eq, Parts.bytes, flatMap_packBits]
    exact List.take_prefix _ _
  have hoffset : 4 * (5 * k) = 5 * (4 * k) := by omega
  rw [hdigits, hsymbols, hoffset]
  exact hwhole.drop _

theorem digits_eq_symbols (h : Spells ((nibbles bytes).map hexDigit) parts) :
    ((nibbles bytes).drop (5 * (parts.hrp.length + 1))).map hexDigit =
      (parts.values.drop (4 * (parts.hrp.length + 1))).map symbol := by
  have hoffset : 5 * (parts.hrp.length + 1) = parts.hrp.length + 1 + 4 * (parts.hrp.length + 1) := by omega
  have hdrop : (parts.hrp ++ '1' :: parts.values.map symbol).drop (parts.hrp.length + 1) =
      parts.values.map symbol := by
    rw [List.drop_length_add_append]
    rfl
  rw [List.map_drop, List.map_drop, hex_chars h, hoffset, ← List.drop_drop, hdrop]

end Alignment

section Windows

/-- Digits that are also the symbols at their places, and whose bits are those that
the symbols give. -/
def Fits (digits : List Nat) (symbols : List (Fin 32)) : Prop :=
  digits.map hexDigit = symbols.map symbol ∧
    digits.flatMap (bits 4) <+: symbols.flatMap (fun v => bits 5 v.val)

instance (digits : List Nat) (symbols : List (Fin 32)) : Decidable (Fits digits symbols) :=
  inferInstanceAs (Decidable (_ ∧ _))

theorem first_digit : ∀ n < 16, ∀ v, Fits [n] [v] → n = 12 ∧ v = 24 := by decide +kernel

def seconds : List (Nat × Fin 32) := [(2, 10), (5, 20), (6, 26), (7, 30)]

theorem Fits.value {n : Nat} {v : Fin 32} (front : List Nat) (front' : List (Fin 32))
    (h : Fits (front ++ [n]) (front' ++ [v])) : v ∈ (symbolValue (hexDigit n)).toList := by
  have hlast := congrArg List.getLast? h.1
  rw [List.map_append, List.map_append, List.map_singleton, List.map_singleton, List.getLast?_concat,
    List.getLast?_concat] at hlast
  rw [Option.some.inj hlast, symbolValue_symbol]
  exact List.mem_singleton_self v

theorem second_digit : ∀ n ∈ List.range 16, ∀ v ∈ (symbolValue (hexDigit n)).toList,
    Fits [12, n] [24, v] → (n, v) ∈ seconds := by
  decide +kernel

theorem third_digit : ∀ p ∈ seconds, ∀ n ∈ List.range 16, ∀ v ∈ (symbolValue (hexDigit n)).toList,
    Fits [12, p.1, n] [24, p.2, v] → n = 8 ∧ v = 7 := by
  decide +kernel

theorem fourth_digit : ∀ p ∈ seconds, ∀ n ∈ List.range 16, ∀ v ∈ (symbolValue (hexDigit n)).toList,
    ¬ Fits [12, p.1, 8, n] [24, p.2, 7, v] := by
  decide +kernel

theorem Fits.initial {digits more : List Nat} {symbols more' : List (Fin 32)}
    (h : Fits (digits ++ more) (symbols ++ more')) (hlength : digits.length = symbols.length) :
    Fits digits symbols := by
  obtain ⟨hchars, hbits⟩ := h
  rw [List.map_append, List.map_append] at hchars
  rw [List.flatMap_append, List.flatMap_append] at hbits
  refine ⟨(List.append_inj hchars (by simp [hlength])).1, ?_⟩
  have hdigits : digits.flatMap (bits 4) <+: symbols.flatMap (fun v => bits 5 v.val) ++
      more'.flatMap (fun v => bits 5 v.val) := (List.prefix_append _ _).trans hbits
  apply List.prefix_of_prefix_length_le hdigits (List.prefix_append _ _)
  rw [flatMap_length (bits_length 4), flatMap_length (fun v : Fin 32 => bits_length 5 v.val), hlength]
  omega

theorem not_fits {digits : List Nat} {symbols : List (Fin 32)} (hlt : ∀ n ∈ digits, n < 16)
    (hdigits : 4 ≤ digits.length) (hsymbols : 4 ≤ symbols.length) : ¬ Fits digits symbols := by
  rcases digits with _ | ⟨n₀, _ | ⟨n₁, _ | ⟨n₂, _ | ⟨n₃, digits⟩⟩⟩⟩
  case cons.cons.cons.cons =>
    rcases symbols with _ | ⟨v₀, _ | ⟨v₁, _ | ⟨v₂, _ | ⟨v₃, symbols⟩⟩⟩⟩
    case cons.cons.cons.cons =>
      intro h
      simp only [List.mem_cons, forall_eq_or_imp] at hlt
      obtain ⟨h₀, h₁, h₂, h₃, -⟩ := hlt
      have hone : Fits [n₀] [v₀] := h.initial rfl
      obtain ⟨rfl, rfl⟩ := first_digit n₀ h₀ v₀ hone
      have htwo : Fits [12, n₁] [24, v₁] := h.initial rfl
      have hsecond := second_digit n₁ (List.mem_range.mpr h₁) v₁ (htwo.value [12] [24]) htwo
      have hthree : Fits [12, n₁, n₂] [24, v₁, v₂] := h.initial rfl
      obtain ⟨rfl, rfl⟩ := third_digit _ hsecond n₂ (List.mem_range.mpr h₂) v₂
        (hthree.value [12, n₁] [24, v₁]) hthree
      have hfour : Fits [12, n₁, 8, n₃] [24, v₁, 7, v₃] := h.initial rfl
      exact fourth_digit _ hsecond n₃ (List.mem_range.mpr h₃) v₃ (hfour.value [12, n₁, 8] [24, v₁, 7]) hfour
    all_goals simp at hsymbols
  all_goals simp at hdigits

/-- No bytes are the payload of their own text. -/
theorem not_fixed (bytes : Bytes) (parts : Parts) : ¬ Fixed bytes parts := by
  intro h
  have htext := hex_length h.spells
  have hbytes := h.lengths
  have hdigits : ((nibbles bytes).drop (5 * (parts.hrp.length + 1))).length =
      2 * bytes.length - 5 * (parts.hrp.length + 1) := by rw [List.length_drop, nibbles_length]
  have hsymbols : (parts.payload.drop (4 * (parts.hrp.length + 1))).length =
      parts.payload.length - 4 * (parts.hrp.length + 1) := List.length_drop
  have hchars := congrArg (List.take 4) (digits_eq_symbols h.spells)
  have hpayload : (parts.values.drop (4 * (parts.hrp.length + 1))).take 4 =
      (parts.payload.drop (4 * (parts.hrp.length + 1))).take 4 := by
    rw [Parts.values, List.drop_append_of_le_length (by omega), List.take_append_of_le_length (by omega)]
  rw [← List.map_take, ← List.map_take, hpayload] at hchars
  refine not_fits ?_ ?_ ?_ ⟨hchars, ?_⟩
  · intro n hn
    exact nibbles_lt bytes n (List.mem_of_mem_drop (List.mem_of_mem_take hn))
  · rw [List.length_take]
    omega
  · rw [List.length_take]
    omega
  · have hwhole := h.aligned (parts.hrp.length + 1)
    refine List.prefix_of_prefix_length_le ((List.IsPrefix.flatMap (List.take_prefix 4 _) _).trans hwhole)
      (List.IsPrefix.flatMap (List.take_prefix 4 _) _) ?_
    rw [flatMap_length (bits_length 4), flatMap_length (fun v : Fin 32 => bits_length 5 v.val),
      List.length_take, List.length_take]
    omega

end Windows

section Results

variable {libs : AddressLibs}

/-- A text that is a string of the other format is never read as the bytes that it
was printed from, and any other text is. -/
theorem read_iff (hb : ReadsBech32 libs) (bytes : Bytes) (hlength : bytes.length ≤ 45) :
    libs.bech32Decode (hexEncode bytes) ≠ some bytes ∧
      (libs.bech32Decode (hexEncode bytes) = none ↔ ¬ IsBech32 (hexEncode bytes)) := by
  have htoList := hexEncode_toList bytes
  have htext : (hexEncode bytes).length ≤ 90 := by
    rw [← String.length_toList, htoList, List.length_map, nibbles_length]
    omega
  have hdecode := hb (hexEncode bytes) htext
  constructor
  · intro hsame
    obtain ⟨parts, hspells, hbytes⟩ := (hdecode bytes).mp hsame
    rw [htoList] at hspells
    exact not_fixed bytes parts ⟨hspells, hbytes⟩
  · rw [Option.eq_none_iff_forall_ne_some]
    constructor
    · rintro hnone ⟨parts, hspells⟩
      exact hnone _ ((hdecode _).mpr ⟨parts, hspells, rfl⟩)
    · intro hnot data hdata
      obtain ⟨parts, hspells, -⟩ := (hdecode data).mp hdata
      exact hnot ⟨parts, hspells⟩

variable (libs) in
def parseForms (n : Nat) (wrongLength unreadable : ApiError) (input : String) : Except ApiError (ByteArr n) :=
  match libs.bech32Decode input with
  | some data => if h : data.length = n then .ok ⟨data, h⟩ else .error wrongLength
  | none =>
      match libs.hexDecode input with
      | some bytes => if h : bytes.length = n then .ok ⟨bytes, h⟩ else .error unreadable
      | none => .error unreadable

theorem parseAddr32_eq (input : String) : parseAddr32 libs input =
    parseForms libs 32 (.badRequest "bech32 address must decode to 32 bytes")
      (.badRequest "invalid address: expected hex or bech32m") input := rfl

theorem parseStakeKey_eq (input : String) : parseStakeKey libs input =
    parseForms libs 29 (.badRequest "bech32 stake key must decode to 29 bytes")
      (.badRequest "invalid stake key: expected 29-byte hex or bech32") input := rfl

theorem parseForms_hex {n : Nat} {wrongLength unreadable : ApiError} (hh : ReadsHex libs) (bytes : ByteArr n)
    (hmoved : libs.bech32Decode (hexEncode bytes.val) ≠ some bytes.val) :
    parseForms libs n wrongLength unreadable (hexEncode bytes.val) = .ok bytes ↔
      libs.bech32Decode (hexEncode bytes.val) = none := by
  rw [parseForms]
  cases hdecode : libs.bech32Decode (hexEncode bytes.val) with
  | none =>
      rw [hh bytes.val]
      dsimp only
      rw [dif_pos bytes.property]
      exact iff_of_true rfl rfl
  | some data =>
      refine iff_of_false (fun hok => ?_) (Option.some_ne_none data)
      dsimp only at hok
      split at hok
      · exact hmoved (hdecode.trans (congrArg (some ·.val) (Except.ok.inj hok)))
      · cases hok

/-- The text of an address, or of a stake key, is read back exactly where it is not
itself a string of the other format. -/
theorem hex_forms (hb : ReadsBech32 libs) (hh : ReadsHex libs) :
    (∀ address : ByteArr 32, parseAddr32 libs (hexEncode address.val) = .ok address ↔
      ¬ IsBech32 (hexEncode address.val)) ∧
    (∀ stakeKey : ByteArr 29, parseStakeKey libs (hexEncode stakeKey.val) = .ok stakeKey ↔
      ¬ IsBech32 (hexEncode stakeKey.val)) := by
  constructor
  · intro address
    have hlength : address.val.length ≤ 45 := by rw [address.property]; omega
    obtain ⟨hmoved, hnone⟩ := read_iff hb address.val hlength
    rw [parseAddr32_eq]
    exact (parseForms_hex hh address hmoved).trans hnone
  · intro stakeKey
    have hlength : stakeKey.val.length ≤ 45 := by rw [stakeKey.property]; omega
    obtain ⟨hmoved, hnone⟩ := read_iff hb stakeKey.val hlength
    rw [parseStakeKey_eq]
    exact (parseForms_hex hh stakeKey hmoved).trans hnone

end Results

section Samples

def bechLibs : AddressLibs where
  bech32Decode text := (decode text.toList).map Parts.bytes
  hexDecode := hexLibs.hexDecode

theorem bechLibs_readsBech32 : ReadsBech32 bechLibs := by
  intro text _ data
  show (decode text.toList).map Parts.bytes = some data ↔ _
  rw [Option.map_eq_some_iff]
  exact exists_congr fun parts => and_congr_left fun _ => decode_iff

theorem not_bech32 {bytes : Bytes} (h : 1 ∉ nibbles bytes) : ¬ IsBech32 (hexEncode bytes) := by
  rintro ⟨parts, hspells⟩
  rw [hexEncode_toList] at hspells
  have hmem : '1' ∈ (nibbles bytes).map hexDigit := by
    rw [hex_chars hspells]
    exact List.mem_append_right _ List.mem_cons_self
  obtain ⟨n, hn, hdigit⟩ := List.mem_map.mp hmem
  have hone : ∀ n < 16, hexDigit n = '1' → n = 1 := by decide
  rw [hone n (nibbles_lt bytes n hn) hdigit] at hn
  exact h hn

theorem hex_forms_sample :
    parseAddr32 bechLibs (hexEncode (ByteArr.filled 32 0xab).val) = .ok (.filled 32 0xab) ∧
      parseStakeKey bechLibs (hexEncode (ByteArr.filled 29 0xe0).val) = .ok (.filled 29 0xe0) := by
  have hforms := hex_forms bechLibs_readsBech32 hexLibs_readsHex
  exact ⟨(hforms.1 _).mpr (not_bech32 (by decide)), (hforms.2 _).mpr (not_bech32 (by decide))⟩

/-- An address whose text has the human-readable part "a" and a checksum that holds. -/
def divertedAddress : ByteArr 32 :=
  ⟨0xa1 :: List.replicate 25 0 ++ [0xcc, 0xcc, 0xcc, 0x2e, 0xf0, 0x70], rfl⟩

def divertedKey : ByteArr 29 :=
  ⟨0xe1 :: 1 :: List.replicate 22 0 ++ [0xdd, 0xdd, 0x6d, 0xd9, 0x98], rfl⟩

def addressParts : Parts := ⟨['a'], List.replicate 50 15 ++ List.replicate 6 24, [10, 25, 9, 15, 30, 15]⟩

def keyParts : Parts :=
  ⟨['e', '1', '0'], List.replicate 44 15 ++ List.replicate 4 13, [26, 13, 13, 5, 5, 7]⟩

theorem address_spells : Spells ((nibbles divertedAddress.val).map hexDigit) addressParts where
  length := by decide
  sameCase := .inl (by decide +kernel)
  chars := by decide +kernel
  hrp_ne := List.cons_ne_nil _ _
  printable := by simp [addressParts]
  checksum_length := rfl
  remainder := by decide +kernel

theorem key_spells : Spells ((nibbles divertedKey.val).map hexDigit) keyParts where
  length := by decide
  sameCase := .inl (by decide +kernel)
  chars := by decide +kernel
  hrp_ne := List.cons_ne_nil _ _
  printable := by simp [keyParts]
  checksum_length := rfl
  remainder := by decide +kernel

/-- Both are refused with the texts that the other format has for a wrong length. -/
theorem hex_forms_diverted : ReadsBech32 bechLibs ∧ ReadsHex bechLibs ∧
    parseAddr32 bechLibs (hexEncode divertedAddress.val) =
      .error (.badRequest "bech32 address must decode to 32 bytes") ∧
    parseStakeKey bechLibs (hexEncode divertedKey.val) =
      .error (.badRequest "bech32 stake key must decode to 29 bytes") := by
  have hread : ∀ bytes, bechLibs.bech32Decode (hexEncode bytes) =
      (decode ((nibbles bytes).map hexDigit)).map Parts.bytes := by
    intro bytes
    rw [← hexEncode_toList]
    rfl
  have haddress : addressParts.bytes.length = 35 := parts_length addressParts
  have hkey : keyParts.bytes.length = 30 := parts_length keyParts
  have hdecode := hread divertedAddress.val
  rw [decode_iff.mpr address_spells, Option.map_some] at hdecode
  have hdecode' := hread divertedKey.val
  rw [decode_iff.mpr key_spells, Option.map_some] at hdecode'
  refine ⟨bechLibs_readsBech32, hexLibs_readsHex, ?_, ?_⟩
  · rw [parseAddr32, hdecode]
    exact dif_neg (by omega)
  · rw [parseStakeKey, hdecode']
    exact dif_neg (by omega)

end Samples

end Nightfrost.HexForms
