import Nightfrost.Endpoints

namespace Nightfrost.CursorTokens

open ByteOrder Domain Api Cursors

/-- A base64 codec that decodes its own encodings and nothing else. -/
structure Strict (codec : CursorCodec) : Prop where
  decode_iff : ∀ s bytes, codec.base64Decode s = some bytes ↔ codec.base64Encode bytes = s

variable {codec : CursorCodec}

section Payloads

variable {queryScope payload : Bytes} {decoded : DecodedCursor}

theorem payload_slices (payload : Bytes) :
    payload = payload.take 1 ++ (payload.drop 1).take 8 ++ (payload.drop 9).take 32 ++
      (payload.drop 41).take 16 ++ (payload.drop 57).take 2 ++ payload.drop fixedPayloadLen := by
  have cut : ∀ (n m : Nat), payload.take n ++ (payload.drop n).take m = payload.take (n + m) :=
    fun n m => List.take_add.symm
  rw [cut 1 8, cut 9 32, cut 41 16, cut 57 2]
  exact (List.take_append_drop fixedPayloadLen payload).symm

/-- What the decoder accepts is the payload of what it makes of it. -/
theorem decodePayload_ok {hlen : fixedPayloadLen ≤ payload.length} :
    codec.decodePayload queryScope payload hlen = .ok decoded ↔
      payload = codec.payload queryScope decoded.anchor decoded.position ∧
        decoded.anchor.height < 2 ^ 64 ∧ decoded.position.length < 2 ^ 16 := by
  constructor
  · intro h
    have hbound : 59 ≤ payload.length := hlen
    rw [CursorCodec.decodePayload] at h
    split at h
    · cases h
    rename_i hversion
    split at h
    · cases h
    rename_i hhash
    split at h
    · cases h
    rename_i hsize
    obtain rfl := Except.ok.inj h
    have height : be 8 (fromBe ((payload.drop 1).take 8)) = (payload.drop 1).take 8 := by
      apply be_fromBe
      rw [List.length_take, List.length_drop]
      omega
    have size : be 2 (fromBe ((payload.drop 57).take 2)) = (payload.drop 57).take 2 := by
      apply be_fromBe
      rw [List.length_take, List.length_drop]
      omega
    have version : payload.take 1 = [cursorVersion] := by
      rw [List.take_one, not_not.mp hversion]
      rfl
    have rest : (payload.drop fixedPayloadLen).length = fromBe ((payload.drop 57).take 2) := by
      rw [List.length_drop, not_not.mp hsize]
      exact Nat.add_sub_cancel_left _ _
    refine ⟨?_, ?_, ?_⟩
    · dsimp only
      rw [CursorCodec.payload, rest, height, size, ← not_not.mp hhash, ← version]
      exact payload_slices payload
    · exact fromBe_lt (List.length_take_le 8 _)
    · dsimp only
      rw [rest]
      exact fromBe_lt (List.length_take_le 2 _)
  · rintro ⟨hpayload, hheight, hposition⟩
    subst hpayload
    exact decodePayload_payload hheight hposition hlen

end Payloads

section Tokens

variable {queryScope queryScope' : Bytes} {token token' : String} {bytes more : Bytes}
  {anchor : TipAnchor} {position : Bytes} {decoded decoded' : DecodedCursor}

theorem stripPrefix_some {p s rest : String} (h : stripPrefix p s = some rest) : s = p ++ rest := by
  rw [stripPrefix] at h
  split at h
  · rename_i hp
    obtain ⟨cs, hcs⟩ := List.isPrefixOf_iff_prefix.mp hp
    obtain rfl := Option.some_inj.mp h
    rw [← String.toList_inj, String.toList_append, String.toList_ofList, ← hcs, List.drop_left]
  · cases h

def tokenFor (codec : CursorCodec) (bytes : Bytes) : String := cursorPrefix ++ codec.base64Encode bytes

theorem decode_bytes (hstrict : Strict codec) (h : codec.decode token queryScope = .ok decoded) :
    ∃ payload, token = tokenFor codec (payload ++ codec.mac payload) ∧
      payload = codec.payload queryScope decoded.anchor decoded.position ∧
        decoded.anchor.height < 2 ^ 64 ∧ decoded.position.length < 2 ^ 16 := by
  rw [CursorCodec.decode] at h
  cases hstrip : stripPrefix cursorPrefix token with
  | none => simp [hstrip] at h
  | some encoded =>
      cases hbytes : codec.base64Decode encoded with
      | none => simp [hstrip, hbytes] at h
      | some bytes =>
          simp only [hstrip, hbytes] at h
          split at h
          · cases h
          rename_i hlen
          split at h
          · cases h
          rename_i hmac
          refine ⟨bytes.take (bytes.length - macLen), ?_, decodePayload_ok.mp h⟩
          rw [tokenFor, ← not_not.mp hmac, List.take_append_drop, (hstrict.decode_iff _ _).mp hbytes]
          exact stripPrefix_some hstrip

theorem decode_ok_iff (hstrict : Strict codec) : codec.decode token queryScope = .ok decoded ↔
    token = codec.encode queryScope decoded.anchor decoded.position ∧
      decoded.anchor.height < 2 ^ 64 ∧ decoded.position.length < 2 ^ 16 := by
  constructor
  · intro h
    obtain ⟨payload, htoken, rfl, hbounds⟩ := decode_bytes hstrict h
    exact ⟨htoken, hbounds⟩
  · rintro ⟨rfl, hheight, hposition⟩
    exact decode_encode (fun bytes => (hstrict.decode_iff _ _).mpr rfl) hheight hposition

theorem tokenFor_injective (hstrict : Strict codec) (h : tokenFor codec bytes = tokenFor codec more) :
    bytes = more := by
  have hencoded : codec.base64Encode bytes = codec.base64Encode more := by
    rw [tokenFor, tokenFor, ← String.toList_inj, String.toList_append, String.toList_append] at h
    exact String.toList_inj.mp (List.append_cancel_left h)
  have hdecoded := (hstrict.decode_iff (codec.base64Encode more) bytes).mpr hencoded
  rw [(hstrict.decode_iff _ _).mpr rfl] at hdecoded
  exact (Option.some_inj.mp hdecoded).symm

theorem size_field (codec : CursorCodec) (queryScope : Bytes) (anchor : TipAnchor) (position rest : Bytes) :
    ((codec.payload queryScope anchor position ++ rest).drop 57).take 2 = be 2 position.length := by
  have hfront : ([cursorVersion] ++ be 8 anchor.height ++ anchor.hash.val ++
      codec.queryHash queryScope).length = 57 := by
    simp [queryHash_length, queryHashLen]
  rw [CursorCodec.payload, List.append_assoc, List.append_assoc, List.drop_left' hfront]
  exact List.take_left' (be_length 2 _)

theorem not_extended (hstrict : Strict codec)
    (h : codec.decode (tokenFor codec bytes) queryScope = .ok decoded)
    (hmore : codec.decode (tokenFor codec (bytes ++ more)) queryScope' = .ok decoded') :
    more = [] := by
  obtain ⟨payload, htoken, hpayload, -, hsize⟩ := decode_bytes hstrict h
  obtain ⟨payload', htoken', hpayload', -, hsize'⟩ := decode_bytes hstrict hmore
  have hbytes := tokenFor_injective hstrict htoken
  have hbytes' := tokenFor_injective hstrict htoken'
  have hfield := size_field codec queryScope decoded.anchor decoded.position
    (codec.mac payload ++ more)
  have hfield' := size_field codec queryScope' decoded'.anchor decoded'.position
    (codec.mac payload')
  rw [← hpayload, ← List.append_assoc, ← hbytes] at hfield
  rw [← hpayload', ← hbytes', hfield] at hfield'
  have hlen := be_injective hsize hsize' hfield'
  have htotal : (bytes ++ more).length = bytes.length := by
    rw [hbytes', hbytes, List.length_append, List.length_append, mac_length, mac_length, hpayload,
      hpayload', payload_length, payload_length, hlen]
  rw [List.length_append] at htotal
  exact List.eq_nil_of_length_eq_zero (by omega)

theorem queryHash_of_encode (hstrict : Strict codec) {anchor' : TipAnchor} {position' : Bytes}
    (h : codec.encode queryScope anchor position = codec.encode queryScope' anchor' position') :
    codec.queryHash queryScope = codec.queryHash queryScope' := by
  have hbytes := tokenFor_injective hstrict h
  have hmacs : (codec.mac (codec.payload queryScope anchor position)).length =
      (codec.mac (codec.payload queryScope' anchor' position')).length := by
    rw [mac_length, mac_length]
  have hpayload := (List.append_inj' hbytes hmacs).1
  have hfield : ∀ (queryScope : Bytes) (anchor : TipAnchor) (position : Bytes),
      ((codec.payload queryScope anchor position).drop 41).take 16 = codec.queryHash queryScope := by
    intro queryScope anchor position
    have hfront : ([cursorVersion] ++ be 8 anchor.height ++ anchor.hash.val).length = 41 := by simp
    rw [CursorCodec.payload, List.append_assoc, List.append_assoc, List.drop_left' hfront]
    exact List.take_left' (queryHash_length _)
  rw [← hfield queryScope anchor position, hpayload, hfield]

end Tokens

section Scopes

/-- A part is behind its length, so that two frames agree only on equal parts. -/
theorem frames_injective {parts parts' : List Bytes} (hlen : ∀ part ∈ parts, part.length < 2 ^ 32)
    (hlen' : ∀ part ∈ parts', part.length < 2 ^ 32)
    (h : parts.flatMap (fun part => be 4 part.length ++ part) =
      parts'.flatMap (fun part => be 4 part.length ++ part)) : parts = parts' := by
  induction parts generalizing parts' with
  | nil =>
      cases parts' with
      | nil => rfl
      | cons part' parts' =>
          have hzero := congrArg List.length h
          simp only [List.flatMap_nil, List.flatMap_cons, List.length_nil, List.length_append,
            be_length] at hzero
          omega
  | cons part parts ih =>
      cases parts' with
      | nil =>
          have hzero := congrArg List.length h
          simp only [List.flatMap_nil, List.flatMap_cons, List.length_nil, List.length_append,
            be_length] at hzero
          omega
      | cons part' parts' =>
          rw [List.flatMap_cons, List.flatMap_cons, List.append_assoc, List.append_assoc] at h
          have hwidths : (be 4 part.length).length = (be 4 part'.length).length := by
            rw [be_length, be_length]
          obtain ⟨hsizes, hrest⟩ := List.append_inj h hwidths
          have hsame : part.length = part'.length :=
            be_injective (hlen part List.mem_cons_self) (hlen' part' List.mem_cons_self) hsizes
          obtain ⟨rfl, htails⟩ := List.append_inj hrest hsame
          have hparts := ih (fun part hp => hlen part (List.mem_cons_of_mem _ hp))
            (fun part hp => hlen' part (List.mem_cons_of_mem _ hp)) htails
          rw [hparts]

theorem scope_injective {parts parts' : List Bytes} {order order' : Order}
    (hlen : ∀ part ∈ parts, part.length < 2 ^ 32) (hlen' : ∀ part ∈ parts', part.length < 2 ^ 32)
    (h : scope parts order = scope parts' order') : parts = parts' ∧ order = order' := by
  obtain ⟨horder, hframes⟩ := List.cons.inj h
  refine ⟨frames_injective hlen hlen' hframes, ?_⟩
  cases order <;> cases order' <;> first | rfl | cases horder

end Scopes

/-- Cursor tokens round-trip, are canonical and stay in their scope; scopes are
told apart by their parts and order. -/
theorem cursor_tokens (hstrict : Strict codec) :
    (∀ queryScope anchor position, anchor.height < 2 ^ 64 → List.length position ≤ 65535 →
      codec.decode (codec.encode queryScope anchor position) queryScope = .ok ⟨anchor, position⟩) ∧
    (∀ token queryScope decoded, codec.decode token queryScope = .ok decoded →
      token = codec.encode queryScope decoded.anchor decoded.position ∧
        decoded.anchor.height < 2 ^ 64 ∧ decoded.position.length ≤ 65535) ∧
    (∀ token token' queryScope decoded, codec.decode token queryScope = .ok decoded →
      codec.decode token' queryScope = .ok decoded → token = token') ∧
    (∀ bytes more queryScope queryScope' decoded decoded',
      codec.decode (tokenFor codec bytes) queryScope = .ok decoded →
      codec.decode (tokenFor codec (bytes ++ more)) queryScope' = .ok decoded' → more = []) ∧
    ((∀ bytes more, (codec.base64Encode bytes).toList <+: (codec.base64Encode more).toList →
        bytes <+: more) →
      ∀ token token' queryScope queryScope' decoded decoded', token.toList <+: token'.toList →
        codec.decode token queryScope = .ok decoded →
        codec.decode token' queryScope' = .ok decoded' → token = token') ∧
    (∀ queryScope queryScope' anchor position decoded,
      codec.decode (codec.encode queryScope anchor position) queryScope' = .ok decoded →
      (codec.sha256 queryScope).val.take 16 = (codec.sha256 queryScope').val.take 16) ∧
    ∀ (parts parts' : List Bytes) (order order' : Order), (∀ part ∈ parts, part.length < 2 ^ 32) →
      (∀ part ∈ parts', part.length < 2 ^ 32) → scope parts order = scope parts' order' →
      parts = parts' ∧ order = order' := by
  refine ⟨?_, ?_, ?_, ?_, ?_, ?_, ?_⟩
  · intro queryScope anchor position hheight hposition
    exact (decode_ok_iff hstrict).mpr ⟨rfl, hheight, by dsimp only; omega⟩
  · intro token queryScope decoded h
    obtain ⟨htoken, hheight, hposition⟩ := (decode_ok_iff hstrict).mp h
    exact ⟨htoken, hheight, by omega⟩
  · intro token token' queryScope decoded h h'
    rw [((decode_ok_iff hstrict).mp h).1, ((decode_ok_iff hstrict).mp h').1]
  · intro bytes more queryScope queryScope' decoded decoded' h h'
    exact not_extended hstrict h h'
  · intro hprefixes token token' queryScope queryScope' decoded decoded' hpart h h'
    obtain ⟨payload, htoken, -⟩ := decode_bytes hstrict h
    obtain ⟨payload', htoken', -⟩ := decode_bytes hstrict h'
    rw [htoken, htoken', tokenFor, tokenFor, String.toList_append, String.toList_append,
      List.prefix_append_right_inj] at hpart
    obtain ⟨more, hmore⟩ := hprefixes _ _ hpart
    rw [htoken] at h
    rw [htoken', ← hmore] at h'
    rw [htoken, htoken', ← hmore, not_extended hstrict h h', List.append_nil]
  · intro queryScope queryScope' anchor position decoded h
    exact queryHash_of_encode hstrict ((decode_ok_iff hstrict).mp h).1
  · intro parts parts' order order' hlen hlen' h
    exact scope_injective hlen hlen' h

theorem sampleCodec_strict : Strict Endpoints.sampleCodec := ⟨fun _ _ => Base64.decode_eq_some_iff⟩

def sampleScope : Bytes := scope [utf8 "ledger_events", be 8 0] .desc

def sampleToken : String := Endpoints.sampleCodec.encode sampleScope ⟨0, .filled 32 0⟩ (be 8 1)

/-- The cursor behind event 1; no part of it is a token for the query. -/
theorem cursor_tokens_event :
    Endpoints.sampleCodec.decode sampleToken sampleScope = .ok ⟨⟨0, .filled 32 0⟩, be 8 1⟩ ∧
      ∀ token decoded, token.toList <+: sampleToken.toList →
        Endpoints.sampleCodec.decode token sampleScope = .ok decoded → token = sampleToken := by
  obtain ⟨hround, -, -, -, hpart, -⟩ := cursor_tokens sampleCodec_strict
  have hdecode := hround sampleScope ⟨0, .filled 32 0⟩ (be 8 1) zero_lt_u64 (by decide)
  refine ⟨hdecode, ?_⟩
  intro token decoded hprefix h
  exact hpart (fun _ _ => Base64.prefix_of_encode) _ _ _ _ _ _ hprefix h hdecode

end Nightfrost.CursorTokens
