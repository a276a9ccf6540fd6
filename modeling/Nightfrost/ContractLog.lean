import Nightfrost.Domain

namespace Nightfrost.ContractLog

open ByteOrder Domain

inductive LogEventType
  | shieldedSpend
  | shieldedReceive
  | shieldedMint
  | shieldedBurn
  | unshieldedSpend
  | unshieldedReceive
  | unshieldedMint
  | unshieldedBurn
  | paused
  | unpaused
  | misc
  deriving DecidableEq

/-- An onchain state value: a cell with the atoms of its aligned value, or
anything else, which the decoder does not look into. -/
inductive StateValue
  | cell (atoms : List Bytes)
  | other
  deriving DecidableEq

structure VersionedLogItem where
  version : Nat
  eventType : LogEventType
  data : StateValue
  deriving DecidableEq

def shieldedSpendSize : Nat := 32

def shieldedReceiveSize : Nat := 578

def shieldedMintSize : Nat := 81

def shieldedBurnSize : Nat := 49

def unshieldedSpendSize : Nat := 145

def unshieldedReceiveSize : Nat := 145

def unshieldedMintSize : Nat := 80

def unshieldedBurnSize : Nat := 113

def miscSize : Nat := 288

def bytes32Size : Nat := 32

def uint128Size : Nat := 16

def eitherSize : Nat := 1 + 2 * bytes32Size

def maybe512Size : Nat := 1 + 512

def slice (bytes : Bytes) (offset len : Nat) : Option Bytes :=
  if offset + len ≤ bytes.length then some ((bytes.drop offset).take len) else none

def extractFlatBytes (data : StateValue) (min max : Nat) : Option Bytes :=
  match data with
  | .cell [atom] =>
      if atom.length > max then none
      else if atom.length < min then none
      else some (atom ++ List.replicate (max - atom.length) 0)
  | _ => none

def takeBytes (bytes : Bytes) (offset len : Nat) : Option Bytes := slice bytes offset len

def takeUint128Le (bytes : Bytes) (offset : Nat) : Option String := do
  let slice ← slice bytes offset uint128Size
  some (toString (fromLe slice))

def takeMaybeBytes (bytes : Bytes) (offset valueLen : Nat) : Option Bytes := do
  let tag ← bytes[offset]?
  if tag = 0 then none else slice bytes (offset + 1) valueLen

def takeMaybeUint128Le (bytes : Bytes) (offset : Nat) : Option String := do
  let tag ← bytes[offset]?
  if tag = 0 then none
  else
    let slice ← slice bytes (offset + 1) uint128Size
    some (toString (fromLe slice))

def takeEitherAddress (bytes : Bytes) (offset : Nat) : Option AddressOrContract := do
  let isLeft ← bytes[offset]?
  let left := offset + 1
  let right := left + bytes32Size
  if isLeft = 0 then
    let value ← slice bytes right bytes32Size
    some (.contract value)
  else
    let value ← slice bytes left bytes32Size
    some (.user value)

def makeContractEventAttributes (item : VersionedLogItem) (entryPoint : Bytes) :
    LedgerEventAttributes :=
  let version := item.version
  match item.eventType with
  | .shieldedSpend =>
      let bytes := extractFlatBytes item.data shieldedSpendSize shieldedSpendSize
      let nullifier := (bytes.bind (takeBytes · 0 bytes32Size)).getD []
      .contractShieldedSpend version entryPoint nullifier
  | .shieldedReceive =>
      let bytes := extractFlatBytes item.data bytes32Size shieldedReceiveSize
      let commitment := (bytes.bind (takeBytes · 0 bytes32Size)).getD []
      let ciphertext := bytes.bind (takeMaybeBytes · bytes32Size 512)
      let receivingContractAddress :=
        bytes.bind (takeMaybeBytes · (bytes32Size + maybe512Size) bytes32Size)
      .contractShieldedReceive version entryPoint commitment ciphertext receivingContractAddress
  | .shieldedMint =>
      let bytes := extractFlatBytes item.data (2 * bytes32Size) shieldedMintSize
      let commitment := (bytes.bind (takeBytes · 0 bytes32Size)).getD []
      let domainSep := (bytes.bind (takeBytes · bytes32Size bytes32Size)).getD []
      let amount := bytes.bind (takeMaybeUint128Le · (2 * bytes32Size))
      .contractShieldedMint version entryPoint commitment domainSep amount
  | .shieldedBurn =>
      let bytes := extractFlatBytes item.data bytes32Size shieldedBurnSize
      let nullifier := (bytes.bind (takeBytes · 0 bytes32Size)).getD []
      let amount := bytes.bind (takeMaybeUint128Le · bytes32Size)
      .contractShieldedBurn version entryPoint nullifier amount
  | .unshieldedSpend =>
      let bytes :=
        extractFlatBytes item.data (unshieldedSpendSize - uint128Size) unshieldedSpendSize
      let sender := (bytes.bind (takeEitherAddress · 0)).getD (.user [])
      let domainSep := (bytes.bind (takeBytes · eitherSize bytes32Size)).getD []
      let tokenType := (bytes.bind (takeBytes · (eitherSize + bytes32Size) bytes32Size)).getD []
      let amount := (bytes.bind (takeUint128Le · (eitherSize + 2 * bytes32Size))).getD "0"
      .contractUnshieldedSpend version entryPoint sender domainSep tokenType amount
  | .unshieldedReceive =>
      let bytes :=
        extractFlatBytes item.data (unshieldedReceiveSize - uint128Size) unshieldedReceiveSize
      let recipient := (bytes.bind (takeEitherAddress · 0)).getD (.user [])
      let domainSep := (bytes.bind (takeBytes · eitherSize bytes32Size)).getD []
      let tokenType := (bytes.bind (takeBytes · (eitherSize + bytes32Size) bytes32Size)).getD []
      let amount := (bytes.bind (takeUint128Le · (eitherSize + 2 * bytes32Size))).getD "0"
      .contractUnshieldedReceive version entryPoint recipient domainSep tokenType amount
  | .unshieldedMint =>
      let bytes := extractFlatBytes item.data (unshieldedMintSize - uint128Size) unshieldedMintSize
      let domainSep := (bytes.bind (takeBytes · 0 bytes32Size)).getD []
      let tokenType := (bytes.bind (takeBytes · bytes32Size bytes32Size)).getD []
      let amount := (bytes.bind (takeUint128Le · (2 * bytes32Size))).getD "0"
      .contractUnshieldedMint version entryPoint domainSep tokenType amount
  | .unshieldedBurn =>
      let bytes := extractFlatBytes item.data (unshieldedBurnSize - uint128Size) unshieldedBurnSize
      let sender := (bytes.bind (takeEitherAddress · 0)).getD (.user [])
      let tokenType := (bytes.bind (takeBytes · eitherSize bytes32Size)).getD []
      let amount := (bytes.bind (takeUint128Le · (eitherSize + bytes32Size))).getD "0"
      .contractUnshieldedBurn version entryPoint sender tokenType amount
  | .paused => .contractPaused version entryPoint
  | .unpaused => .contractUnpaused version entryPoint
  | .misc =>
      let bytes := extractFlatBytes item.data bytes32Size miscSize
      let name := (bytes.bind (takeBytes · 0 bytes32Size)).getD []
      let payload := (bytes.bind (takeBytes · bytes32Size 256)).getD []
      .contractMisc version entryPoint name payload

section Wire

inductive Payload
  | shieldedSpend (nullifier : ByteArr 32)
  | shieldedReceive (commitment : ByteArr 32) (ciphertext : Option (ByteArr 512))
      (receivingContractAddress : Option (ByteArr 32))
  | shieldedMint (commitment domainSep : ByteArr 32) (amount : Option (Fin (2 ^ 128)))
  | shieldedBurn (nullifier : ByteArr 32) (amount : Option (Fin (2 ^ 128)))
  | unshieldedSpend (sender : ByteArr 32 ⊕ ByteArr 32) (domainSep tokenType : ByteArr 32)
      (amount : Fin (2 ^ 128))
  | unshieldedReceive (recipient : ByteArr 32 ⊕ ByteArr 32) (domainSep tokenType : ByteArr 32)
      (amount : Fin (2 ^ 128))
  | unshieldedMint (domainSep tokenType : ByteArr 32) (amount : Fin (2 ^ 128))
  | unshieldedBurn (sender : ByteArr 32 ⊕ ByteArr 32) (tokenType : ByteArr 32)
      (amount : Fin (2 ^ 128))
  | misc (name : ByteArr 32) (payload : ByteArr 256)

def Payload.eventType : Payload → LogEventType
  | .shieldedSpend _ => .shieldedSpend
  | .shieldedReceive _ _ _ => .shieldedReceive
  | .shieldedMint _ _ _ => .shieldedMint
  | .shieldedBurn _ _ => .shieldedBurn
  | .unshieldedSpend _ _ _ _ => .unshieldedSpend
  | .unshieldedReceive _ _ _ _ => .unshieldedReceive
  | .unshieldedMint _ _ _ => .unshieldedMint
  | .unshieldedBurn _ _ _ => .unshieldedBurn
  | .misc _ _ => .misc

def le (w n : Nat) : ByteArr w := ⟨(be w n).reverse, by simp⟩

def wireMaybe {len : Nat} : Option (ByteArr len) → Bytes
  | some value => 1 :: value.val
  | none => 0 :: List.replicate len 0

def wireEither : ByteArr 32 ⊕ ByteArr 32 → Bytes
  | .inl user => 1 :: user.val ++ List.replicate 32 0
  | .inr contract => 0 :: List.replicate 32 0 ++ contract.val

/-- The fields before the last one that trailing zeros may take away as a whole. -/
def Payload.lead : Payload → Bytes
  | .shieldedSpend nullifier => nullifier.val
  | .shieldedReceive commitment _ _ => commitment.val
  | .shieldedMint commitment domainSep _ => commitment.val ++ domainSep.val
  | .shieldedBurn nullifier _ => nullifier.val
  | .unshieldedSpend address domainSep tokenType _
  | .unshieldedReceive address domainSep tokenType _ =>
      wireEither address ++ domainSep.val ++ tokenType.val
  | .unshieldedMint domainSep tokenType _ => domainSep.val ++ tokenType.val
  | .unshieldedBurn sender tokenType _ => wireEither sender ++ tokenType.val
  | .misc name _ => name.val

/-- The fields that may be zero in full: amounts, options and the free-form payload. -/
def Payload.tail : Payload → Bytes
  | .shieldedSpend _ => []
  | .shieldedReceive _ ciphertext receivingContractAddress =>
      wireMaybe ciphertext ++ wireMaybe receivingContractAddress
  | .shieldedMint _ _ amount | .shieldedBurn _ amount => wireMaybe (amount.map (le 16 ·.val))
  | .unshieldedSpend _ _ _ amount | .unshieldedReceive _ _ _ amount | .unshieldedMint _ _ amount
  | .unshieldedBurn _ _ amount => (le 16 amount.val).val
  | .misc _ payload => payload.val

def Payload.wire (p : Payload) : Bytes := p.lead ++ p.tail

def stripZeros (bytes : Bytes) : Bytes := bytes.rdropWhile (· = 0)

/-- The log item of an emission: one atom, without its trailing zeros. -/
def Payload.item (version : Nat) (p : Payload) : VersionedLogItem :=
  ⟨version, p.eventType, .cell [stripZeros p.wire]⟩

def addressOf : ByteArr 32 ⊕ ByteArr 32 → AddressOrContract
  | .inl user => .user user.val
  | .inr contract => .contract contract.val

def Payload.attributes (version : Nat) (entryPoint : Bytes) : Payload → LedgerEventAttributes
  | .shieldedSpend nullifier => .contractShieldedSpend version entryPoint nullifier.val
  | .shieldedReceive commitment ciphertext receivingContractAddress =>
      .contractShieldedReceive version entryPoint commitment.val (ciphertext.map Subtype.val)
        (receivingContractAddress.map Subtype.val)
  | .shieldedMint commitment domainSep amount =>
      .contractShieldedMint version entryPoint commitment.val domainSep.val
        (amount.map (toString ·.val))
  | .shieldedBurn nullifier amount =>
      .contractShieldedBurn version entryPoint nullifier.val (amount.map (toString ·.val))
  | .unshieldedSpend sender domainSep tokenType amount =>
      .contractUnshieldedSpend version entryPoint (addressOf sender) domainSep.val tokenType.val
        (toString amount.val)
  | .unshieldedReceive recipient domainSep tokenType amount =>
      .contractUnshieldedReceive version entryPoint (addressOf recipient) domainSep.val tokenType.val
        (toString amount.val)
  | .unshieldedMint domainSep tokenType amount =>
      .contractUnshieldedMint version entryPoint domainSep.val tokenType.val (toString amount.val)
  | .unshieldedBurn sender tokenType amount =>
      .contractUnshieldedBurn version entryPoint (addressOf sender) tokenType.val
        (toString amount.val)
  | .misc name payload => .contractMisc version entryPoint name.val payload.val

def EndsNonzero {n : Nat} (bytes : ByteArr n) : Prop := ∃ b, bytes.val.getLast? = some b ∧ b ≠ 0

/-- The last of the fixed fields ends in a nonzero byte, or a field after it is not all zero. -/
def Payload.Decodable : Payload → Prop
  | .shieldedSpend nullifier => EndsNonzero nullifier
  | .shieldedReceive commitment ciphertext receivingContractAddress =>
      EndsNonzero commitment ∨ ciphertext ≠ none ∨ receivingContractAddress ≠ none
  | .shieldedMint _ domainSep amount => EndsNonzero domainSep ∨ amount ≠ none
  | .shieldedBurn nullifier amount => EndsNonzero nullifier ∨ amount ≠ none
  | .unshieldedSpend _ _ tokenType amount | .unshieldedReceive _ _ tokenType amount
  | .unshieldedMint _ tokenType amount | .unshieldedBurn _ tokenType amount =>
      EndsNonzero tokenType ∨ amount ≠ 0
  | .misc name payload => EndsNonzero name ∨ ∃ b ∈ payload.val, b ≠ 0

end Wire

section Readers

variable {a c : Bytes} {offset : Nat}

theorem slice_at {b : Bytes} {len : Nat} (ha : a.length = offset) (hb : b.length = len) :
    slice (a ++ (b ++ c)) offset len = some b := by
  subst ha hb
  simp [slice]

theorem fromLe_le {w n : Nat} (h : n < 256 ^ w) : fromLe (le w n).val = n := by
  rw [fromLe, le, List.reverse_reverse, fromBe_be h]

theorem takeUint128Le_at (ha : a.length = offset) (amount : Fin (2 ^ 128)) :
    takeUint128Le (a ++ ((le 16 amount.val).val ++ c)) offset = some (toString amount.val) := by
  have hslice := slice_at (c := c) ha (le 16 amount.val).property
  have hvalue : fromLe (le 16 amount.val).val = amount.val := fromLe_le amount.isLt
  simp only [takeUint128Le, uint128Size, hslice, Option.bind_eq_bind, Option.bind_some, hvalue]

theorem tag_at {tag : UInt8} {rest : Bytes} (ha : a.length = offset) :
    (a ++ tag :: rest)[offset]? = some tag := by
  subst ha
  simp

theorem slice_after_tag (tag : UInt8) {b : Bytes} {len : Nat} (ha : a.length = offset)
    (hb : b.length = len) : slice (a ++ tag :: (b ++ c)) (offset + 1) len = some b := by
  have h := slice_at (c := c) (show (a ++ [tag]).length = offset + 1 by simp [ha]) hb
  rwa [List.append_assoc, List.singleton_append] at h

theorem takeMaybeBytes_at {len : Nat} (ha : a.length = offset) (value : Option (ByteArr len)) :
    takeMaybeBytes (a ++ (wireMaybe value ++ c)) offset len =
      value.map Subtype.val := by
  cases value with
  | none => simp [takeMaybeBytes, wireMaybe, tag_at ha]
  | some value =>
      have hslice := slice_after_tag (c := c) 1 ha value.property
      simp [takeMaybeBytes, wireMaybe, tag_at ha, hslice]

theorem takeMaybeUint128Le_at (ha : a.length = offset) (amount : Option (Fin (2 ^ 128))) :
    takeMaybeUint128Le (a ++ (wireMaybe (amount.map (le 16 ·.val)) ++ c)) offset =
      amount.map (toString ·.val) := by
  cases amount with
  | none => simp [takeMaybeUint128Le, wireMaybe, tag_at ha]
  | some amount =>
      have hslice := slice_after_tag (c := c) 1 ha (le 16 amount.val).property
      have hvalue : fromLe (le 16 amount.val).val = amount.val := fromLe_le amount.isLt
      simp [takeMaybeUint128Le, wireMaybe, uint128Size, tag_at ha, hslice, hvalue]

theorem takeEitherAddress_at (ha : a.length = offset) (address : ByteArr 32 ⊕ ByteArr 32) :
    takeEitherAddress (a ++ (wireEither address ++ c)) offset = some (addressOf address) := by
  have hzeros : (List.replicate 32 (0 : UInt8)).length = 32 := List.length_replicate
  unfold wireEither
  generalize List.replicate 32 (0 : UInt8) = zeros at hzeros
  cases address with
  | inl user =>
      have hslice := slice_after_tag (c := zeros ++ c) 1 ha user.property
      simp only [List.cons_append, List.append_assoc]
      simp [takeEitherAddress, bytes32Size, tag_at ha, hslice, addressOf]
  | inr contract =>
      have hlen : (a ++ 0 :: zeros).length = offset + 1 + 32 := by simp [ha, hzeros, add_assoc]
      have hslice := slice_at (c := c) hlen contract.property
      simp only [List.append_assoc, List.cons_append] at hslice ⊢
      simp [takeEitherAddress, bytes32Size, tag_at ha, hslice, addressOf]

end Readers

section RoundTrip

@[simp] theorem wireMaybe_length {len : Nat} (value : Option (ByteArr len)) :
    (wireMaybe value).length = 1 + len := by
  cases value <;> simp [wireMaybe, add_comm]

@[simp] theorem wireEither_length (address : ByteArr 32 ⊕ ByteArr 32) :
    (wireEither address).length = 65 := by
  cases address with
  | inl user => simp [wireEither]
  | inr contract => simp [wireEither]

def LogEventType.maxSize : LogEventType → Nat
  | .shieldedSpend => shieldedSpendSize
  | .shieldedReceive => shieldedReceiveSize
  | .shieldedMint => shieldedMintSize
  | .shieldedBurn => shieldedBurnSize
  | .unshieldedSpend => unshieldedSpendSize
  | .unshieldedReceive => unshieldedReceiveSize
  | .unshieldedMint => unshieldedMintSize
  | .unshieldedBurn => unshieldedBurnSize
  | .misc => miscSize
  | .paused | .unpaused => 0

theorem wire_length (p : Payload) : p.wire.length = p.eventType.maxSize := by
  cases p <;> simp [Payload.wire, Payload.lead, Payload.tail, Payload.eventType,
    LogEventType.maxSize, shieldedSpendSize, shieldedReceiveSize, shieldedMintSize,
    shieldedBurnSize, unshieldedSpendSize, unshieldedReceiveSize, unshieldedMintSize,
    unshieldedBurnSize, miscSize]

def LogEventType.minSize : LogEventType → Nat
  | .shieldedSpend => shieldedSpendSize
  | .shieldedReceive => bytes32Size
  | .shieldedMint => 2 * bytes32Size
  | .shieldedBurn => bytes32Size
  | .unshieldedSpend => unshieldedSpendSize - uint128Size
  | .unshieldedReceive => unshieldedReceiveSize - uint128Size
  | .unshieldedMint => unshieldedMintSize - uint128Size
  | .unshieldedBurn => unshieldedBurnSize - uint128Size
  | .misc => bytes32Size
  | .paused | .unpaused => 0

theorem lead_length (p : Payload) : p.lead.length = p.eventType.minSize := by
  cases p <;> simp [Payload.lead, Payload.eventType, LogEventType.minSize, shieldedSpendSize,
    unshieldedSpendSize, unshieldedReceiveSize, unshieldedMintSize, unshieldedBurnSize, bytes32Size,
    uint128Size]

theorem pad_stripZeros (bytes : Bytes) :
    stripZeros bytes ++ List.replicate (bytes.length - (stripZeros bytes).length) 0 = bytes := by
  have hsplit := List.rdropWhile_append_rtakeWhile (p := fun b : UInt8 => decide (b = 0)) (l := bytes)
  have hlen := congrArg List.length hsplit
  rw [List.length_append] at hlen
  have hzeros : bytes.rtakeWhile (fun b : UInt8 => decide (b = 0)) =
      List.replicate (bytes.length - (stripZeros bytes).length) 0 := by
    rw [List.eq_replicate_iff]
    refine ⟨by unfold stripZeros; omega, ?_⟩
    intro b hb
    simpa using List.mem_rtakeWhile_imp hb
  rw [← hzeros]
  exact hsplit

theorem stripZeros_length_le (bytes : Bytes) : (stripZeros bytes).length ≤ bytes.length :=
  (List.rdropWhile_prefix _ bytes).length_le

theorem extractFlatBytes_stripZeros (bytes : Bytes) (min : Nat) :
    extractFlatBytes (.cell [stripZeros bytes]) min bytes.length =
      if min ≤ (stripZeros bytes).length then some bytes else none := by
  simp only [extractFlatBytes]
  rw [if_neg (Nat.not_lt.mpr (stripZeros_length_le bytes)), pad_stripZeros]
  by_cases h : min ≤ (stripZeros bytes).length
  · rw [if_pos h, if_neg (Nat.not_lt.mpr h)]
  · rw [if_neg h, if_pos (Nat.lt_of_not_le h)]

/-- What stripping leaves reaches the end of the lead when the lead ends in a
nonzero byte or a nonzero byte follows it. -/
theorem lead_le_stripZeros (lead tail : Bytes) (hlead : lead ≠ []) :
    lead.length ≤ (stripZeros (lead ++ tail)).length ↔
      (∃ b, lead.getLast? = some b ∧ b ≠ 0) ∨ ∃ b ∈ tail, b ≠ 0 := by
  induction tail using List.reverseRecOn with
  | nil =>
      obtain ⟨init, last, rfl⟩ := List.eq_nil_or_concat' lead |>.resolve_left hlead
      rw [List.append_nil, stripZeros, List.rdropWhile_concat]
      have hinit := stripZeros_length_le init
      by_cases hz : last = 0
      · simp [hz, stripZeros] at hinit ⊢
        omega
      · simp [hz]
  | append_singleton tail b ih =>
      rw [← List.append_assoc, stripZeros, List.rdropWhile_concat]
      by_cases hz : b = 0
      · rw [if_pos (by simpa using hz), ← stripZeros, ih]
        simp [hz]
      · rw [if_neg (by simpa using hz)]
        simp [hz]

theorem lead_ne_nil (p : Payload) : p.lead ≠ [] := by
  intro h
  have hlen := congrArg List.length h
  cases p <;> simp only [Payload.lead, List.length_append, ByteArr.length_val, wireEither_length,
    List.length_nil, Nat.reduceAdd, OfNat.ofNat_ne_zero] at hlen

theorem wireMaybe_nonzero {len : Nat} (value : Option (ByteArr len)) :
    (∃ b ∈ wireMaybe value, b ≠ 0) ↔ value ≠ none := by
  cases value with
  | none =>
      constructor
      · rintro ⟨b, hb, hne⟩
        rcases List.mem_cons.mp hb with h | h
        · exact absurd h hne
        · exact absurd (List.eq_of_mem_replicate h) hne
      · intro h
        exact absurd rfl h
  | some value => simp [wireMaybe]

theorem le_nonzero (amount : Fin (2 ^ 128)) :
    (∃ b ∈ (le 16 amount.val).val, b ≠ 0) ↔ amount ≠ 0 := by
  constructor
  · rintro ⟨b, hb, hne⟩ rfl
    have hzero : (le 16 (0 : Fin (2 ^ 128)).val).val = List.replicate 16 0 := by decide
    rw [hzero] at hb
    exact hne (List.eq_of_mem_replicate hb)
  · intro hne
    by_contra hall
    push Not at hall
    have hzero : (le 16 amount.val).val = List.replicate 16 0 :=
      List.eq_replicate_iff.mpr ⟨(le 16 amount.val).property, hall⟩
    have hvalue : fromLe (le 16 amount.val).val = amount.val := fromLe_le amount.isLt
    rw [hzero] at hvalue
    have hfrom : fromLe (List.replicate 16 0) = 0 := by decide
    exact hne (Fin.ext (hvalue.symm.trans hfrom))

theorem exists_append {x y : Bytes} : (∃ b ∈ x ++ y, b ≠ 0) ↔ (∃ b ∈ x, b ≠ 0) ∨ ∃ b ∈ y, b ≠ 0 := by
  simp only [List.mem_append, or_and_right, exists_or]

theorem getLast?_append_arr {n : Nat} (x : Bytes) (y : ByteArr (n + 1)) :
    (x ++ y.val).getLast? = y.val.getLast? := by
  have hne : y.val ≠ [] := by
    intro h
    have hlen := y.property
    rw [h] at hlen
    cases hlen
  rw [List.getLast?_append_of_ne_nil _ hne]

theorem decodable_iff (p : Payload) :
    p.Decodable ↔ p.lead.length ≤ (stripZeros p.wire).length := by
  rw [Payload.wire, lead_le_stripZeros _ _ (lead_ne_nil p)]
  cases p with
  | shieldedSpend nullifier => simp [Payload.Decodable, Payload.lead, Payload.tail, EndsNonzero]
  | shieldedReceive commitment ciphertext address =>
      rw [Payload.tail, exists_append, wireMaybe_nonzero, wireMaybe_nonzero]
      rfl
  | shieldedMint commitment domainSep amount =>
      rw [Payload.tail, wireMaybe_nonzero, Payload.lead, getLast?_append_arr, ne_eq,
        Option.map_eq_none_iff]
      rfl
  | shieldedBurn nullifier amount =>
      rw [Payload.tail, wireMaybe_nonzero, ne_eq, Option.map_eq_none_iff]
      rfl
  | unshieldedSpend sender domainSep tokenType amount =>
      rw [Payload.tail, le_nonzero, Payload.lead, getLast?_append_arr]
      rfl
  | unshieldedReceive recipient domainSep tokenType amount =>
      rw [Payload.tail, le_nonzero, Payload.lead, getLast?_append_arr]
      rfl
  | unshieldedMint domainSep tokenType amount =>
      rw [Payload.tail, le_nonzero, Payload.lead, getLast?_append_arr]
      rfl
  | unshieldedBurn sender tokenType amount =>
      rw [Payload.tail, le_nonzero, Payload.lead, getLast?_append_arr]
      rfl
  | misc name payload => rfl

theorem extract_ok {p : Payload} (hd : p.Decodable) :
    extractFlatBytes (.cell [stripZeros p.wire]) p.eventType.minSize p.eventType.maxSize =
      some p.wire := by
  rw [← wire_length, extractFlatBytes_stripZeros, ← lead_length, if_pos ((decodable_iff p).mp hd)]

theorem extract_none {p : Payload} (hd : ¬ p.Decodable) :
    extractFlatBytes (.cell [stripZeros p.wire]) p.eventType.minSize p.eventType.maxSize = none := by
  rw [← wire_length, extractFlatBytes_stripZeros, ← lead_length,
    if_neg (fun h => hd ((decodable_iff p).mpr h))]

section Fields

variable (bytes : Bytes)

theorem receive_fields (commitment : ByteArr 32) (ciphertext : Option (ByteArr 512))
    (address : Option (ByteArr 32))
    (hbytes : bytes = commitment.val ++ (wireMaybe ciphertext ++ wireMaybe address)) :
    takeBytes bytes 0 bytes32Size = some commitment.val ∧
      takeMaybeBytes bytes bytes32Size 512 = ciphertext.map Subtype.val ∧
      takeMaybeBytes bytes (bytes32Size + maybe512Size) bytes32Size = address.map Subtype.val := by
  subst hbytes
  refine ⟨slice_at (a := []) rfl commitment.property,
    takeMaybeBytes_at commitment.property ciphertext, ?_⟩
  have h := takeMaybeBytes_at (a := commitment.val ++ wireMaybe ciphertext) (c := [])
    (by simp [bytes32Size, maybe512Size] : _ = bytes32Size + maybe512Size) address
  rwa [List.append_nil, List.append_assoc] at h

theorem mint_fields (commitment domainSep : ByteArr 32) (amount : Option (Fin (2 ^ 128)))
    (hbytes : bytes = commitment.val ++ domainSep.val ++ wireMaybe (amount.map (le 16 ·.val))) :
    takeBytes bytes 0 bytes32Size = some commitment.val ∧
      takeBytes bytes bytes32Size bytes32Size = some domainSep.val ∧
      takeMaybeUint128Le bytes (2 * bytes32Size) = amount.map (toString ·.val) := by
  have h := takeMaybeUint128Le_at (a := commitment.val ++ domainSep.val) (c := [])
    (by simp [bytes32Size] : _ = 2 * bytes32Size) amount
  rw [List.append_nil] at h
  subst hbytes
  refine ⟨?_, ?_, h⟩
  · rw [List.append_assoc]
    exact slice_at (a := []) rfl commitment.property
  · rw [List.append_assoc]
    exact slice_at commitment.property domainSep.property

theorem burn_fields (nullifier : ByteArr 32) (amount : Option (Fin (2 ^ 128)))
    (hbytes : bytes = nullifier.val ++ wireMaybe (amount.map (le 16 ·.val))) :
    takeBytes bytes 0 bytes32Size = some nullifier.val ∧
      takeMaybeUint128Le bytes bytes32Size = amount.map (toString ·.val) := by
  have h := takeMaybeUint128Le_at (c := []) nullifier.property amount
  rw [List.append_nil] at h
  subst hbytes
  exact ⟨slice_at (a := []) rfl nullifier.property, h⟩

theorem transfer_fields (address : ByteArr 32 ⊕ ByteArr 32) (domainSep tokenType : ByteArr 32)
    (amount : Fin (2 ^ 128))
    (hbytes : bytes = wireEither address ++ domainSep.val ++ tokenType.val ++ (le 16 amount.val).val) :
    takeEitherAddress bytes 0 = some (addressOf address) ∧
      takeBytes bytes eitherSize bytes32Size = some domainSep.val ∧
      takeBytes bytes (eitherSize + bytes32Size) bytes32Size = some tokenType.val ∧
      takeUint128Le bytes (eitherSize + 2 * bytes32Size) = some (toString amount.val) := by
  have h := takeUint128Le_at (a := wireEither address ++ domainSep.val ++ tokenType.val) (c := [])
    (by simp [eitherSize, bytes32Size] : _ = eitherSize + 2 * bytes32Size) amount
  rw [List.append_nil] at h
  subst hbytes
  refine ⟨?_, ?_, ?_, h⟩
  · rw [List.append_assoc, List.append_assoc]
    exact takeEitherAddress_at (a := []) rfl address
  · rw [List.append_assoc, List.append_assoc]
    exact slice_at (wireEither_length address) domainSep.property
  · rw [List.append_assoc]
    exact slice_at (by simp [eitherSize, bytes32Size]) tokenType.property

theorem unshieldedMint_fields (domainSep tokenType : ByteArr 32) (amount : Fin (2 ^ 128))
    (hbytes : bytes = domainSep.val ++ tokenType.val ++ (le 16 amount.val).val) :
    takeBytes bytes 0 bytes32Size = some domainSep.val ∧
      takeBytes bytes bytes32Size bytes32Size = some tokenType.val ∧
      takeUint128Le bytes (2 * bytes32Size) = some (toString amount.val) := by
  have h := takeUint128Le_at (a := domainSep.val ++ tokenType.val) (c := [])
    (by simp [bytes32Size] : _ = 2 * bytes32Size) amount
  rw [List.append_nil] at h
  subst hbytes
  refine ⟨?_, ?_, h⟩
  · rw [List.append_assoc]
    exact slice_at (a := []) rfl domainSep.property
  · rw [List.append_assoc]
    exact slice_at domainSep.property tokenType.property

theorem unshieldedBurn_fields (sender : ByteArr 32 ⊕ ByteArr 32) (tokenType : ByteArr 32)
    (amount : Fin (2 ^ 128))
    (hbytes : bytes = wireEither sender ++ tokenType.val ++ (le 16 amount.val).val) :
    takeEitherAddress bytes 0 = some (addressOf sender) ∧
      takeBytes bytes eitherSize bytes32Size = some tokenType.val ∧
      takeUint128Le bytes (eitherSize + bytes32Size) = some (toString amount.val) := by
  have h := takeUint128Le_at (a := wireEither sender ++ tokenType.val) (c := [])
    (by simp [eitherSize, bytes32Size] : _ = eitherSize + bytes32Size) amount
  rw [List.append_nil] at h
  subst hbytes
  refine ⟨?_, ?_, h⟩
  · rw [List.append_assoc]
    exact takeEitherAddress_at (a := []) rfl sender
  · rw [List.append_assoc]
    exact slice_at (wireEither_length sender) tokenType.property

theorem misc_fields (name : ByteArr 32) (payload : ByteArr 256)
    (hbytes : bytes = name.val ++ payload.val) :
    takeBytes bytes 0 bytes32Size = some name.val ∧
      takeBytes bytes bytes32Size 256 = some payload.val := by
  have h := slice_at (c := []) name.property payload.property
  rw [List.append_nil] at h
  subst hbytes
  exact ⟨slice_at (a := []) rfl name.property, h⟩

end Fields

theorem decode_ok {p : Payload} (hd : p.Decodable) (version : Nat) (entryPoint : Bytes) :
    makeContractEventAttributes (p.item version) entryPoint = p.attributes version entryPoint := by
  have hx := extract_ok hd
  cases p with
  | shieldedSpend nullifier =>
      simp only [Payload.eventType, LogEventType.minSize, LogEventType.maxSize] at hx
      have hfield : takeBytes (Payload.shieldedSpend nullifier).wire 0 bytes32Size =
          some nullifier.val := slice_at (a := []) (c := []) rfl nullifier.property
      simp only [makeContractEventAttributes, Payload.item, Payload.eventType, hx,
        Option.bind_some, hfield, Option.getD_some, Payload.attributes]
  | shieldedReceive commitment ciphertext address =>
      simp only [Payload.eventType, LogEventType.minSize, LogEventType.maxSize] at hx
      obtain ⟨h₁, h₂, h₃⟩ := receive_fields (Payload.shieldedReceive commitment ciphertext address).wire
        commitment ciphertext address rfl
      simp only [makeContractEventAttributes, Payload.item, Payload.eventType, hx,
        Option.bind_some, h₁, h₂, h₃, Option.getD_some, Payload.attributes]
  | shieldedMint commitment domainSep amount =>
      simp only [Payload.eventType, LogEventType.minSize, LogEventType.maxSize] at hx
      obtain ⟨h₁, h₂, h₃⟩ := mint_fields (Payload.shieldedMint commitment domainSep amount).wire
        commitment domainSep amount rfl
      simp only [makeContractEventAttributes, Payload.item, Payload.eventType, hx,
        Option.bind_some, h₁, h₂, h₃, Option.getD_some, Payload.attributes]
  | shieldedBurn nullifier amount =>
      simp only [Payload.eventType, LogEventType.minSize, LogEventType.maxSize] at hx
      obtain ⟨h₁, h₂⟩ := burn_fields (Payload.shieldedBurn nullifier amount).wire
        nullifier amount rfl
      simp only [makeContractEventAttributes, Payload.item, Payload.eventType, hx,
        Option.bind_some, h₁, h₂, Option.getD_some, Payload.attributes]
  | unshieldedSpend sender domainSep tokenType amount =>
      simp only [Payload.eventType, LogEventType.minSize, LogEventType.maxSize] at hx
      obtain ⟨h₁, h₂, h₃, h₄⟩ := transfer_fields (Payload.unshieldedSpend sender domainSep tokenType amount).wire
        sender domainSep tokenType amount rfl
      simp only [makeContractEventAttributes, Payload.item, Payload.eventType, hx,
        Option.bind_some, h₁, h₂, h₃, h₄, Option.getD_some, Payload.attributes]
  | unshieldedReceive recipient domainSep tokenType amount =>
      simp only [Payload.eventType, LogEventType.minSize, LogEventType.maxSize] at hx
      obtain ⟨h₁, h₂, h₃, h₄⟩ := transfer_fields (Payload.unshieldedReceive recipient domainSep tokenType amount).wire
        recipient domainSep tokenType amount rfl
      simp only [makeContractEventAttributes, Payload.item, Payload.eventType, hx,
        Option.bind_some, h₁, h₂, h₃, h₄, Option.getD_some, Payload.attributes]
  | unshieldedMint domainSep tokenType amount =>
      simp only [Payload.eventType, LogEventType.minSize, LogEventType.maxSize] at hx
      obtain ⟨h₁, h₂, h₃⟩ := unshieldedMint_fields (Payload.unshieldedMint domainSep tokenType amount).wire
        domainSep tokenType amount rfl
      simp only [makeContractEventAttributes, Payload.item, Payload.eventType, hx,
        Option.bind_some, h₁, h₂, h₃, Option.getD_some, Payload.attributes]
  | unshieldedBurn sender tokenType amount =>
      simp only [Payload.eventType, LogEventType.minSize, LogEventType.maxSize] at hx
      obtain ⟨h₁, h₂, h₃⟩ := unshieldedBurn_fields (Payload.unshieldedBurn sender tokenType amount).wire
        sender tokenType amount rfl
      simp only [makeContractEventAttributes, Payload.item, Payload.eventType, hx,
        Option.bind_some, h₁, h₂, h₃, Option.getD_some, Payload.attributes]
  | misc name payload =>
      simp only [Payload.eventType, LogEventType.minSize, LogEventType.maxSize] at hx
      obtain ⟨h₁, h₂⟩ := misc_fields (Payload.misc name payload).wire
        name payload rfl
      simp only [makeContractEventAttributes, Payload.item, Payload.eventType, hx,
        Option.bind_some, h₁, h₂, Option.getD_some, Payload.attributes]

theorem arr_ne_nil {n : Nat} (a : ByteArr (n + 1)) : ([] : Bytes) ≠ a.val := by
  intro h
  have hlen := a.property
  rw [← h] at hlen
  cases hlen

theorem decode_none {p : Payload} (hd : ¬ p.Decodable) (version : Nat) (entryPoint : Bytes) :
    makeContractEventAttributes (p.item version) entryPoint ≠ p.attributes version entryPoint := by
  intro h
  have hx := extract_none hd
  cases p with
  | shieldedSpend nullifier =>
      simp only [Payload.eventType, LogEventType.minSize, LogEventType.maxSize] at hx
      simp only [makeContractEventAttributes, Payload.item, Payload.eventType, hx,
        Option.bind_none, Option.getD_none, Payload.attributes] at h
      injection h with _ _ hfield
      exact arr_ne_nil nullifier hfield
  | shieldedReceive commitment ciphertext address =>
      simp only [Payload.eventType, LogEventType.minSize, LogEventType.maxSize] at hx
      simp only [makeContractEventAttributes, Payload.item, Payload.eventType, hx,
        Option.bind_none, Option.getD_none, Payload.attributes] at h
      injection h with _ _ hfield
      exact arr_ne_nil commitment hfield
  | shieldedMint commitment domainSep amount =>
      simp only [Payload.eventType, LogEventType.minSize, LogEventType.maxSize] at hx
      simp only [makeContractEventAttributes, Payload.item, Payload.eventType, hx,
        Option.bind_none, Option.getD_none, Payload.attributes] at h
      injection h with _ _ hfield
      exact arr_ne_nil commitment hfield
  | shieldedBurn nullifier amount =>
      simp only [Payload.eventType, LogEventType.minSize, LogEventType.maxSize] at hx
      simp only [makeContractEventAttributes, Payload.item, Payload.eventType, hx,
        Option.bind_none, Option.getD_none, Payload.attributes] at h
      injection h with _ _ hfield
      exact arr_ne_nil nullifier hfield
  | unshieldedSpend sender domainSep tokenType amount =>
      simp only [Payload.eventType, LogEventType.minSize, LogEventType.maxSize] at hx
      simp only [makeContractEventAttributes, Payload.item, Payload.eventType, hx,
        Option.bind_none, Option.getD_none, Payload.attributes] at h
      injection h with _ _ _ hfield
      exact arr_ne_nil domainSep hfield
  | unshieldedReceive recipient domainSep tokenType amount =>
      simp only [Payload.eventType, LogEventType.minSize, LogEventType.maxSize] at hx
      simp only [makeContractEventAttributes, Payload.item, Payload.eventType, hx,
        Option.bind_none, Option.getD_none, Payload.attributes] at h
      injection h with _ _ _ hfield
      exact arr_ne_nil domainSep hfield
  | unshieldedMint domainSep tokenType amount =>
      simp only [Payload.eventType, LogEventType.minSize, LogEventType.maxSize] at hx
      simp only [makeContractEventAttributes, Payload.item, Payload.eventType, hx,
        Option.bind_none, Option.getD_none, Payload.attributes] at h
      injection h with _ _ hfield
      exact arr_ne_nil domainSep hfield
  | unshieldedBurn sender tokenType amount =>
      simp only [Payload.eventType, LogEventType.minSize, LogEventType.maxSize] at hx
      simp only [makeContractEventAttributes, Payload.item, Payload.eventType, hx,
        Option.bind_none, Option.getD_none, Payload.attributes] at h
      injection h with _ _ _ hfield
      exact arr_ne_nil tokenType hfield
  | misc name payload =>
      simp only [Payload.eventType, LogEventType.minSize, LogEventType.maxSize] at hx
      simp only [makeContractEventAttributes, Payload.item, Payload.eventType, hx,
        Option.bind_none, Option.getD_none, Payload.attributes] at h
      injection h with _ _ hfield
      exact arr_ne_nil name hfield

/-- Decoding undoes the wire encoding exactly on the decodable payloads. -/
theorem decode_item_iff (p : Payload) (version : Nat) (entryPoint : Bytes) :
    makeContractEventAttributes (p.item version) entryPoint = p.attributes version entryPoint ↔
      p.Decodable := by
  constructor
  · intro h
    by_contra hd
    exact decode_none hd version entryPoint h
  · intro hd
    exact decode_ok hd version entryPoint

def zeroEnded : ByteArr 32 := ⟨List.replicate 31 170 ++ [0], rfl⟩

/-- A nullifier that ends in a zero byte decodes to no bytes at all. -/
theorem shieldedSpend_zeroEnded :
    makeContractEventAttributes ((Payload.shieldedSpend zeroEnded).item 1) [] ≠
      (Payload.shieldedSpend zeroEnded).attributes 1 [] := by
  decide

end RoundTrip

end Nightfrost.ContractLog
