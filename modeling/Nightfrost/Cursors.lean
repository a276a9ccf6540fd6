import Nightfrost.Api

namespace Nightfrost.Cursors

open ByteOrder Tables Domain Api ExceptFold

def cursorPrefix : String := "nf1."

def cursorVersion : UInt8 := 1

def queryHashLen : Nat := 16

def macLen : Nat := 16

def fixedPayloadLen : Nat := 1 + 8 + 32 + queryHashLen + 2

def maxCursorLen : Nat := 1024

inductive Order
  | asc
  | desc
  deriving DecidableEq

structure Pagination where
  count : Nat := 100
  order : Order := .asc
  cursor : Option String := none
  page : Option Nat := none
  deriving DecidableEq

def Pagination.validate (p : Pagination) : Except ApiError Unit :=
  if ¬ (1 ≤ p.count ∧ p.count ≤ 5000) then
    .error (.badRequest "querystring count should be within range 1-5000")
  else if p.page.isSome then
    .error (.badRequest "querystring page is no longer supported; use next_cursor as cursor")
  else if p.cursor.any (fun cursor => cursor.utf8ByteSize > maxCursorLen) then
    .error (.badRequest "cursor is too long")
  else .ok ()

structure DecodedCursor where
  anchor : TipAnchor
  position : Bytes
  deriving DecidableEq

structure CursorCodec where
  key : Bytes
  sha256 : Bytes → ByteArr 32
  hmacSha256 : Bytes → Bytes → ByteArr 32
  base64Encode : Bytes → String
  base64Decode : String → Option Bytes

/-- Unpadded base64: four characters for three bytes, undone by decoding. -/
structure CursorCodec.Lawful (codec : CursorCodec) : Prop where
  decode_encode : ∀ bytes, codec.base64Decode (codec.base64Encode bytes) = some bytes
  encode_size : ∀ bytes, (codec.base64Encode bytes).utf8ByteSize = (4 * List.length bytes + 2) / 3

variable (codec : CursorCodec)

def CursorCodec.mac (payload : Bytes) : Bytes := (codec.hmacSha256 codec.key payload).val.take macLen

def CursorCodec.queryHash (scope : Bytes) : Bytes := (codec.sha256 scope).val.take queryHashLen

def CursorCodec.payload (scope : Bytes) (anchor : TipAnchor) (position : Bytes) : Bytes :=
  [cursorVersion] ++ be 8 anchor.height ++ anchor.hash.val ++ codec.queryHash scope ++
    be 2 position.length ++ position

/-- A longer position than its two length bytes can tell makes a token that no request accepts. -/
def CursorCodec.encode (scope : Bytes) (anchor : TipAnchor) (position : Bytes) : String :=
  let payload := codec.payload scope anchor position
  cursorPrefix ++ codec.base64Encode (payload ++ codec.mac payload)

def stripPrefix (p s : String) : Option String :=
  if p.toList.isPrefixOf s.toList then some (String.ofList (s.toList.drop p.toList.length)) else none

def CursorCodec.decodePayload (scope payload : Bytes) (hlen : fixedPayloadLen ≤ payload.length) :
    Except ApiError DecodedCursor :=
  if payload.head? ≠ some cursorVersion then .error (.badRequest "unsupported cursor version")
  else if (payload.drop 41).take 16 ≠ codec.queryHash scope then
    .error (.badRequest "cursor does not belong to this query")
  else if payload.length ≠ fixedPayloadLen + fromBe ((payload.drop 57).take 2) then
    .error (.badRequest "invalid cursor position length")
  else
    .ok ⟨⟨fromBe ((payload.drop 1).take 8), (payload.drop 9).take 32, by
      simp only [fixedPayloadLen, queryHashLen] at hlen
      rw [List.length_take, List.length_drop]
      omega⟩, payload.drop fixedPayloadLen⟩

def CursorCodec.decode (token : String) (scope : Bytes) : Except ApiError DecodedCursor :=
  match stripPrefix cursorPrefix token with
  | none => .error (.badRequest "invalid cursor prefix")
  | some encoded =>
      match codec.base64Decode encoded with
      | none => .error (.badRequest "invalid cursor encoding")
      | some bytes =>
          if hlen : bytes.length < fixedPayloadLen + macLen then
            .error (.badRequest "truncated cursor")
          else
            let payload := bytes.take (bytes.length - macLen)
            if bytes.drop (bytes.length - macLen) ≠ codec.mac payload then
              .error (.badRequest "invalid cursor signature")
            else
              codec.decodePayload scope payload (by
                rw [List.length_take]
                omega)

/-- The order and the parts of a query, each part behind its length. -/
def scope (parts : List Bytes) (order : Order) : Bytes :=
  (match order with | .asc => 0 | .desc => 1) ::
    parts.flatMap (fun part => be 4 part.length ++ part)

def prefixEndLoop : Bytes → Option Bytes
  | [] => none
  | last :: rest => if last ≠ 255 then some ((last + 1) :: rest) else prefixEndLoop rest

/-- Smallest byte string greater than every key with a prefix, if there is one. -/
def prefixEnd (p : Bytes) : Option Bytes := (prefixEndLoop p.reverse).map List.reverse

section RoundTrip

variable {codec}

theorem stripPrefix_append (p s : String) : stripPrefix p (p ++ s) = some s := by
  rw [stripPrefix, String.toList_append, if_pos (List.isPrefixOf_iff_prefix.mpr (List.prefix_append _ _)),
    List.drop_left, String.ofList_toList]

theorem mac_length (payload : Bytes) : (codec.mac payload).length = macLen := by
  rw [CursorCodec.mac, List.length_take, ByteArr.length_val]
  rfl

theorem queryHash_length (scope : Bytes) : (codec.queryHash scope).length = queryHashLen := by
  rw [CursorCodec.queryHash, List.length_take, ByteArr.length_val]
  rfl

theorem payload_length (scope : Bytes) (anchor : TipAnchor) (position : Bytes) :
    (codec.payload scope anchor position).length = fixedPayloadLen + position.length := by
  simp only [CursorCodec.payload, List.length_append, List.length_singleton, be_length,
    ByteArr.length_val, queryHash_length, fixedPayloadLen]

theorem decodePayload_payload {scope : Bytes} {anchor : TipAnchor} {position : Bytes}
    (hheight : anchor.height < 2 ^ 64) (hposition : position.length < 2 ^ 16)
    (hlen : fixedPayloadLen ≤ (codec.payload scope anchor position).length) :
    codec.decodePayload scope (codec.payload scope anchor position) hlen = .ok ⟨anchor, position⟩ := by
  have hslices : codec.payload scope anchor position =
      [cursorVersion] ++ (be 8 anchor.height ++ (anchor.hash.val ++ (codec.queryHash scope ++
        (be 2 position.length ++ position)))) := by
    simp only [CursorCodec.payload, List.append_assoc]
  have h₁ : (codec.payload scope anchor position).drop 1 = be 8 anchor.height ++ (anchor.hash.val ++
      (codec.queryHash scope ++ (be 2 position.length ++ position))) := by
    rw [hslices]
    rfl
  have h₉ : (codec.payload scope anchor position).drop 9 = anchor.hash.val ++
      (codec.queryHash scope ++ (be 2 position.length ++ position)) := by
    rw [show 9 = 1 + 8 from rfl, ← List.drop_drop, h₁]
    exact List.drop_left' (be_length 8 _)
  have h₄₁ : (codec.payload scope anchor position).drop 41 =
      codec.queryHash scope ++ (be 2 position.length ++ position) := by
    rw [show 41 = 9 + 32 from rfl, ← List.drop_drop, h₉]
    exact List.drop_left' anchor.hash.property
  have h₅₇ : (codec.payload scope anchor position).drop 57 = be 2 position.length ++ position := by
    rw [show 57 = 41 + 16 from rfl, ← List.drop_drop, h₄₁]
    exact List.drop_left' (queryHash_length scope)
  have h₅₉ : (codec.payload scope anchor position).drop fixedPayloadLen = position := by
    rw [show fixedPayloadLen = 57 + 2 from rfl, ← List.drop_drop, h₅₇]
    exact List.drop_left' (be_length 2 _)
  have hversion : (codec.payload scope anchor position).head? = some cursorVersion := by
    rw [hslices]
    rfl
  have hhash : ((codec.payload scope anchor position).drop 41).take 16 = codec.queryHash scope := by
    rw [h₄₁]
    exact List.take_left' (queryHash_length scope)
  have hsize : fromBe (((codec.payload scope anchor position).drop 57).take 2) = position.length := by
    rw [h₅₇, List.take_left' (be_length 2 _)]
    exact fromBe_be hposition
  have hheight' : fromBe (((codec.payload scope anchor position).drop 1).take 8) = anchor.height := by
    rw [h₁, List.take_left' (be_length 8 _)]
    exact fromBe_be hheight
  have hanchor : ((codec.payload scope anchor position).drop 9).take 32 = anchor.hash.val := by
    rw [h₉]
    exact List.take_left' anchor.hash.property
  rw [CursorCodec.decodePayload, if_neg (not_not.mpr hversion), if_neg (not_not.mpr hhash),
    if_neg (not_not.mpr (by rw [hsize, payload_length]))]
  simp only [hheight', hanchor, h₅₉]

theorem decode_encode
    (hl : ∀ bytes, codec.base64Decode (codec.base64Encode bytes) = some bytes) {scope : Bytes}
    {anchor : TipAnchor} {position : Bytes} (hheight : anchor.height < 2 ^ 64) (hposition : position.length < 2 ^ 16) :
    codec.decode (codec.encode scope anchor position) scope = .ok ⟨anchor, position⟩ := by
  have hmac : (codec.mac (codec.payload scope anchor position)).length = macLen := mac_length _
  have hlen : (codec.payload scope anchor position).length = fixedPayloadLen + position.length :=
    payload_length _ _ _
  rw [CursorCodec.decode, CursorCodec.encode, stripPrefix_append]
  dsimp only
  rw [hl]
  dsimp only
  have hcut : (codec.payload scope anchor position ++
      codec.mac (codec.payload scope anchor position)).length - macLen =
        (codec.payload scope anchor position).length := by
    rw [List.length_append, hmac, Nat.add_sub_cancel]
  rw [dif_neg (by rw [List.length_append, hlen, hmac]; omega)]
  simp only [hcut, List.take_left, List.drop_left, ne_eq, not_true_eq_false, if_false]
  exact decodePayload_payload hheight hposition _

theorem encode_length (hl : codec.Lawful) (scope : Bytes) (anchor : TipAnchor) (position : Bytes) :
    (codec.encode scope anchor position).utf8ByteSize = 4 + (4 * (position.length + 75) + 2) / 3 := by
  have hpayload : (codec.payload scope anchor position ++
      codec.mac (codec.payload scope anchor position)).length = position.length + 75 := by
    rw [List.length_append, payload_length, mac_length, fixedPayloadLen, queryHashLen, macLen]
    omega
  have hprefix : cursorPrefix.utf8ByteSize = 4 := by decide
  rw [CursorCodec.encode, String.utf8ByteSize_append, hl.encode_size, hpayload, hprefix]

theorem encode_size_iff (hl : codec.Lawful) (scope : Bytes) (anchor : TipAnchor) (position : Bytes) :
    (codec.encode scope anchor position).utf8ByteSize ≤ maxCursorLen ↔ position.length ≤ 690 := by
  rw [encode_length hl, maxCursorLen]
  omega

end RoundTrip

section PrefixEnd

theorem prefixEndLoop_concat (a : UInt8) (xs : Bytes) :
    prefixEndLoop (xs ++ [a]) =
      match prefixEndLoop xs with
      | some e => some (e ++ [a])
      | none => if a ≠ 255 then some [a + 1] else none := by
  induction xs with
  | nil => rfl
  | cons x xs ih =>
      by_cases hx : x ≠ 255
      · rw [List.cons_append, prefixEndLoop, prefixEndLoop, if_pos hx, if_pos hx]
        rfl
      · rw [List.cons_append, prefixEndLoop, prefixEndLoop, if_neg hx, if_neg hx, ih]

theorem prefixEnd_cons (a : UInt8) (p : Bytes) :
    prefixEnd (a :: p) =
      match prefixEnd p with
      | some e => some (a :: e)
      | none => if a ≠ 255 then some [a + 1] else none := by
  rw [prefixEnd, List.reverse_cons, prefixEndLoop_concat, prefixEnd]
  cases prefixEndLoop p.reverse with
  | some e => simp
  | none =>
      by_cases ha : a ≠ 255
      · rw [if_pos ha]
        rfl
      · rw [if_neg ha]
        rfl

theorem lt_add_one {a : UInt8} (ha : a ≠ 255) : compare a (a + 1) = .lt := by
  rw [Std.compare_eq_lt, UInt8.lt_iff_toNat_lt, UInt8.toNat_add]
  have hlt := a.toNat_lt
  have hne : a.toNat ≠ 255 := fun h => ha (UInt8.toNat_inj.mp h)
  simp
  omega

theorem below_prefixEnd {p k e : Bytes} (hp : p <+: k) (he : prefixEnd p = some e) :
    compare k e = .lt := by
  induction p generalizing k e with
  | nil => cases he
  | cons a p ih =>
      obtain ⟨rest, rfl⟩ := hp
      rw [prefixEnd_cons] at he
      cases hend : prefixEnd p with
      | some e' =>
          rw [hend] at he
          obtain rfl := Option.some.inj he
          rw [List.cons_append, List.compare_cons_cons, Std.ReflOrd.compare_self]
          exact ih (List.prefix_append p rest) hend
      | none =>
          rw [hend] at he
          dsimp only at he
          split at he
          · rename_i ha
            obtain rfl := Option.some.inj he
            rw [List.cons_append, List.compare_cons_cons, lt_add_one ha]
            rfl
          · cases he

theorem beyond_unprefixed {p k : Bytes} (hle : (compare p k).isLE) (hp : ¬ p <+: k) :
    (∀ y, compare k (p ++ y) = .gt) ∧ ∃ e, prefixEnd p = some e ∧ compare k e ≠ .lt := by
  induction p generalizing k with
  | nil => exact absurd List.nil_prefix hp
  | cons a p ih =>
      cases k with
      | nil => cases hle
      | cons b k =>
          rw [List.compare_cons_cons] at hle
          rcases Std.lt_trichotomy a b with hlt | rfl | hgt
          · have hab : compare b a = .gt := Std.compare_eq_gt.mpr hlt
            refine ⟨fun y => by rw [List.cons_append, List.compare_cons_cons, hab]; rfl, ?_⟩
            rw [prefixEnd_cons]
            cases prefixEnd p with
            | some e =>
                refine ⟨a :: e, rfl, ?_⟩
                rw [List.compare_cons_cons, hab]
                exact Ordering.noConfusion
            | none =>
                have ha : a ≠ 255 := by
                  rintro rfl
                  have hnat := UInt8.lt_iff_toNat_lt.mp hlt
                  have := b.toNat_lt
                  simp at hnat
                  omega
                refine ⟨[a + 1], if_pos ha, ?_⟩
                rw [List.compare_cons_cons]
                have hge : compare b (a + 1) ≠ .lt := by
                  rw [ne_eq, Std.compare_eq_lt, UInt8.lt_iff_toNat_lt, UInt8.toNat_add]
                  have hnat := UInt8.lt_iff_toNat_lt.mp hlt
                  have hne : a.toNat ≠ 255 := fun h => ha (UInt8.toNat_inj.mp h)
                  have := a.toNat_lt
                  simp
                  omega
                cases hcmp : compare b (a + 1) with
                | lt => exact absurd hcmp hge
                | eq => cases k <;> exact Ordering.noConfusion
                | gt => exact Ordering.noConfusion
          · rw [Std.ReflOrd.compare_self] at hle
            have hp' : ¬ p <+: k := fun h => hp (by rwa [List.cons_prefix_cons, eq_self, true_and])
            obtain ⟨hall, e, he, hge⟩ := ih hle hp'
            refine ⟨fun y => ?_, a :: e, by rw [prefixEnd_cons, he], ?_⟩
            · rw [List.cons_append, List.compare_cons_cons, Std.ReflOrd.compare_self]
              exact hall y
            · rw [List.compare_cons_cons, Std.ReflOrd.compare_self]
              exact hge
          · rw [Std.compare_eq_gt.mpr hgt] at hle
            cases hle

end PrefixEnd

end Nightfrost.Cursors
