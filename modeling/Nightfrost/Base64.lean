import Nightfrost.ByteOrder

namespace Nightfrost.Base64

open ByteOrder

def alphabet : List Char :=
  "ABCDEFGHIJKLMNOPQRSTUVWXYZabcdefghijklmnopqrstuvwxyz0123456789-_".toList

def digitChar (d : Fin 64) : Char := alphabet.getD d 'A'

def charDigit (c : Char) : Option (Fin 64) := (List.finRange 64).find? (fun d => digitChar d = c)

def toDigits : Bytes → List (Fin 64)
  | a :: b :: c :: rest =>
      Fin.ofNat 64 (a.toNat / 4) :: Fin.ofNat 64 (a.toNat * 16 + b.toNat / 16) ::
        Fin.ofNat 64 (b.toNat * 4 + c.toNat / 64) :: Fin.ofNat 64 c.toNat :: toDigits rest
  | [a, b] =>
      [Fin.ofNat 64 (a.toNat / 4), Fin.ofNat 64 (a.toNat * 16 + b.toNat / 16),
        Fin.ofNat 64 (b.toNat * 4)]
  | [a] => [Fin.ofNat 64 (a.toNat / 4), Fin.ofNat 64 (a.toNat * 16)]
  | [] => []

def ofDigits : List (Fin 64) → Option Bytes
  | d :: e :: f :: g :: rest =>
      (ofDigits rest).map (fun bytes => UInt8.ofNat (d.val * 4 + e.val / 16) ::
        UInt8.ofNat (e.val * 16 + f.val / 4) :: UInt8.ofNat (f.val * 64 + g.val) :: bytes)
  | [d, e, f] =>
      if f.val % 4 = 0 then
        some [UInt8.ofNat (d.val * 4 + e.val / 16), UInt8.ofNat (e.val * 16 + f.val / 4)]
      else none
  | [d, e] => if e.val % 16 = 0 then some [UInt8.ofNat (d.val * 4 + e.val / 16)] else none
  | [_] => none
  | [] => some []

/-- Unpadded base64 with the alphabet for URLs. -/
def encode (bytes : Bytes) : String := String.ofList ((toDigits bytes).map digitChar)

def decode (s : String) : Option Bytes := (s.toList.mapM charDigit).bind ofDigits

theorem charDigit_digitChar (d : Fin 64) : charDigit (digitChar d) = some d := by
  revert d
  decide +kernel

theorem digitChar_size (d : Fin 64) : (String.ofList [digitChar d]).utf8ByteSize = 1 := by
  revert d
  decide +kernel

theorem byte_eq {n : Nat} {a : UInt8} (h : n % 256 = a.toNat) : UInt8.ofNat n = a := by
  rw [← UInt8.toNat_inj, UInt8.toNat_ofNat']
  exact h

theorem ofDigits_toDigits (bytes : Bytes) : ofDigits (toDigits bytes) = some bytes := by
  induction bytes using toDigits.induct with
  | case1 a b c rest ih =>
      have ha := a.toNat_lt
      have hb := b.toNat_lt
      have hc := c.toNat_lt
      rw [toDigits, ofDigits, ih, Option.map_some, byte_eq (a := a), byte_eq (a := b), byte_eq (a := c)]
      all_goals
        simp only [Fin.ofNat]
        omega
  | case2 a b =>
      have ha := a.toNat_lt
      have hb := b.toNat_lt
      rw [toDigits, ofDigits, if_pos, byte_eq (a := a), byte_eq (a := b)]
      all_goals
        simp only [Fin.ofNat]
        omega
  | case3 a =>
      have ha := a.toNat_lt
      rw [toDigits, ofDigits, if_pos, byte_eq (a := a)]
      all_goals
        simp only [Fin.ofNat]
        omega
  | case4 => rfl

theorem mapM_charDigit (ds : List (Fin 64)) : (ds.map digitChar).mapM charDigit = some ds := by
  induction ds with
  | nil => rfl
  | cons d ds ih =>
      rw [List.map_cons, List.mapM_cons, charDigit_digitChar, ih]
      rfl

theorem decode_encode (bytes : Bytes) : decode (encode bytes) = some bytes := by
  rw [decode, encode, String.toList_ofList, mapM_charDigit]
  exact ofDigits_toDigits bytes

theorem digit_eq {n : Nat} {d : Fin 64} (h : n % 64 = d.val) : Fin.ofNat 64 n = d := Fin.ext h

theorem toDigits_ofDigits {ds : List (Fin 64)} {bytes : Bytes} (h : ofDigits ds = some bytes) :
    toDigits bytes = ds := by
  induction ds using ofDigits.induct generalizing bytes with
  | case1 d e f g rest ih =>
      have he := e.isLt
      have hf := f.isLt
      have hg := g.isLt
      rw [ofDigits, Option.map_eq_some_iff] at h
      obtain ⟨bytes', hrest, rfl⟩ := h
      rw [toDigits, ih hrest, digit_eq (d := d), digit_eq (d := e), digit_eq (d := f),
        digit_eq (d := g)]
      all_goals
        simp only [UInt8.toNat_ofNat']
        omega
  | case2 d e f hzero =>
      have he := e.isLt
      rw [ofDigits, if_pos hzero] at h
      obtain rfl := Option.some_inj.mp h
      rw [toDigits, digit_eq (d := d), digit_eq (d := e), digit_eq (d := f)]
      all_goals
        simp only [UInt8.toNat_ofNat']
        omega
  | case3 d e f hzero =>
      rw [ofDigits, if_neg hzero] at h
      cases h
  | case4 d e hzero =>
      rw [ofDigits, if_pos hzero] at h
      obtain rfl := Option.some_inj.mp h
      rw [toDigits, digit_eq (d := d), digit_eq (d := e)]
      all_goals
        simp only [UInt8.toNat_ofNat']
        omega
  | case5 d e hzero =>
      rw [ofDigits, if_neg hzero] at h
      cases h
  | case6 d => cases h
  | case7 =>
      obtain rfl := Option.some_inj.mp h
      rfl

theorem charDigit_some {c : Char} {d : Fin 64} (h : charDigit c = some d) : digitChar d = c := by
  rw [charDigit] at h
  simpa using List.find?_some h

theorem mapM_charDigit_some {cs : List Char} {ds : List (Fin 64)} (h : cs.mapM charDigit = some ds) :
    ds.map digitChar = cs := by
  induction cs generalizing ds with
  | nil =>
      obtain rfl := Option.some_inj.mp h
      rfl
  | cons c cs ih =>
      rw [List.mapM_cons] at h
      obtain ⟨d, hd, h⟩ := Option.bind_eq_some_iff.mp h
      obtain ⟨ds', hds, h⟩ := Option.bind_eq_some_iff.mp h
      obtain rfl := Option.some_inj.mp h
      rw [List.map_cons, charDigit_some hd, ih hds]

/-- The codec decodes its own encodings and nothing else. -/
theorem decode_eq_some_iff {s : String} {bytes : Bytes} : decode s = some bytes ↔ encode bytes = s := by
  constructor
  · intro h
    obtain ⟨ds, hds, hbytes⟩ := Option.bind_eq_some_iff.mp h
    rw [encode, toDigits_ofDigits hbytes, mapM_charDigit_some hds, String.ofList_toList]
  · rintro rfl
    exact decode_encode bytes

theorem ofDigits_append {ds rest : List (Fin 64)} {bytes more : Bytes} (h : ofDigits ds = some bytes)
    (hmore : ofDigits (ds ++ rest) = some more) : bytes <+: more := by
  induction ds using ofDigits.induct generalizing bytes more with
  | case1 d e f g ds ih =>
      rw [ofDigits, Option.map_eq_some_iff] at h
      obtain ⟨bytes', hds, rfl⟩ := h
      rw [List.cons_append, List.cons_append, List.cons_append, List.cons_append, ofDigits,
        Option.map_eq_some_iff] at hmore
      obtain ⟨more', hrest, rfl⟩ := hmore
      simpa [List.cons_prefix_cons] using ih hds hrest
  | case2 d e f hzero =>
      rw [ofDigits, if_pos hzero] at h
      obtain rfl := Option.some_inj.mp h
      cases rest with
      | nil =>
          rw [List.append_nil, ofDigits, if_pos hzero] at hmore
          rw [Option.some_inj.mp hmore]
      | cons g rest =>
          obtain ⟨more', -, rfl⟩ := Option.map_eq_some_iff.mp hmore
          simp [List.cons_prefix_cons]
  | case3 d e f hzero =>
      rw [ofDigits, if_neg hzero] at h
      cases h
  | case4 d e hzero =>
      rw [ofDigits, if_pos hzero] at h
      obtain rfl := Option.some_inj.mp h
      cases rest with
      | nil =>
          rw [List.append_nil, ofDigits, if_pos hzero] at hmore
          rw [Option.some_inj.mp hmore]
      | cons f rest =>
          cases rest with
          | nil =>
              change (if f.val % 4 = 0 then _ else none) = some more at hmore
              split at hmore
              · rw [← Option.some_inj.mp hmore]
                simp [List.cons_prefix_cons]
              · cases hmore
          | cons g rest =>
              obtain ⟨more', -, rfl⟩ := Option.map_eq_some_iff.mp hmore
              simp [List.cons_prefix_cons]
  | case5 d e hzero =>
      rw [ofDigits, if_neg hzero] at h
      cases h
  | case6 d => cases h
  | case7 =>
      obtain rfl := Option.some_inj.mp h
      exact List.nil_prefix

theorem prefix_of_encode {bytes more : Bytes} (h : (encode bytes).toList <+: (encode more).toList) :
    bytes <+: more := by
  obtain ⟨cs, hcs⟩ := h
  rw [encode, encode, String.toList_ofList, String.toList_ofList] at hcs
  obtain ⟨ds, rest, hds, hfirst, -⟩ := List.map_eq_append_iff.mp hcs.symm
  have hsame : ds = toDigits bytes := by
    have hread := congrArg (List.mapM charDigit) hfirst
    rw [mapM_charDigit, mapM_charDigit] at hread
    exact Option.some_inj.mp hread
  have hmore := ofDigits_toDigits more
  rw [hds, hsame] at hmore
  exact ofDigits_append (ofDigits_toDigits bytes) hmore

theorem toDigits_length (bytes : Bytes) : (toDigits bytes).length = (4 * bytes.length + 2) / 3 := by
  induction bytes using toDigits.induct with
  | case1 a b c rest ih =>
      simp only [toDigits, List.length_cons, ih]
      omega
  | case2 a b => simp [toDigits]
  | case3 a => simp [toDigits]
  | case4 => rfl

theorem ofList_size (ds : List (Fin 64)) : (String.ofList (ds.map digitChar)).utf8ByteSize = ds.length := by
  induction ds with
  | nil => rfl
  | cons d ds ih =>
      rw [List.map_cons, ← List.singleton_append, String.ofList_append, String.utf8ByteSize_append, ih,
        digitChar_size, List.length_cons, Nat.add_comm]

theorem encode_size (bytes : Bytes) : (encode bytes).utf8ByteSize = (4 * bytes.length + 2) / 3 := by
  rw [encode, ofList_size, toDigits_length]

end Nightfrost.Base64
