import Nightfrost.Domain
import Nightfrost.ExceptFold
import Nightfrost.PrefixCodes

namespace Nightfrost.JournalFormat

open ByteOrder Domain ExceptFold PrefixCodes

def magicBytes : Bytes := [70, 74, 76, 2]

inductive ValueType
  | value
  | tombstone
  | weakTombstone
  deriving DecidableEq

inductive CompressionType
  | none
  | other
  deriving DecidableEq

structure Item where
  partition : String
  key : Bytes
  value : Bytes
  valueType : ValueType
  deriving DecidableEq

structure Item.Fits (item : Item) : Prop where
  partition : (utf8 item.partition).length < 2 ^ 8
  key : item.key.length < 2 ^ 16
  value : item.value.length < 2 ^ 32

inductive Marker
  | start (itemCount seqno : Nat) (compression : CompressionType)
  | item (item : Item)
  | finish (checksum : Nat)
  deriving DecidableEq

inductive DecodeError
  | unexpectedEof
  | invalidTag (name : String) (value : UInt8)
  | invalidTrailer
  | utf8
  | panicked (message : String)
  deriving DecidableEq

structure TreeCoding where
  valueTypeByte : ValueType → UInt8
  valueTypeOf : UInt8 → Option ValueType
  encodeCompression : CompressionType → Bytes
  decodeCompression : Bytes → Except DecodeError (CompressionType × Bytes)
  xxh3 : Bytes → Nat

/-- No compression is written as zero bytes, and zero bytes are read as nothing else. -/
structure TreeCoding.Lawful (coding : TreeCoding) : Prop where
  valueType : ∀ {b : UInt8} {t : ValueType}, coding.valueTypeOf b = some t ↔ coding.valueTypeByte t = b
  compression : ∀ {x rest : Bytes}, coding.decodeCompression x = .ok (.none, rest) ↔
    x = coding.encodeCompression .none ++ rest
  zeros : ∀ b ∈ coding.encodeCompression .none, b = 0
  other : ∀ {x rest : Bytes}, coding.decodeCompression x = .ok (.other, rest) → ∃ b ∈ x, b ≠ 0
  panicked : ∀ {x : Bytes} {message : String},
    coding.decodeCompression x = .error (.panicked message) → ∃ b ∈ x, b ≠ 0
  checksum : ∀ x, coding.xxh3 x < 2 ^ 64

inductive Tag
  | start
  | item
  | finish
  deriving DecidableEq

def Tag.byte : Tag → UInt8
  | .start => 1
  | .item => 2
  | .finish => 3

def Tag.tryFrom (value : UInt8) : Except DecodeError Tag :=
  if value = 1 then .ok .start
  else if value = 2 then .ok .item
  else if value = 3 then .ok .finish
  else .error (.invalidTag "JournalMarkerTag" value)

section Encode

variable (coding : TreeCoding)

/-- The lengths are cut to the width of their fields. -/
def serializeMarkerItem (item : Item) : Bytes :=
  [Tag.item.byte, coding.valueTypeByte item.valueType] ++
    be 1 (utf8 item.partition).length ++ utf8 item.partition ++
    be 2 item.key.length ++ item.key ++
    be 4 item.value.length ++ item.value

def Marker.encode : Marker → Bytes
  | .start itemCount seqno compression =>
      [Tag.start.byte] ++ be 4 itemCount ++ be 8 seqno ++ coding.encodeCompression compression
  | .item entry => serializeMarkerItem coding entry
  | .finish checksum => [Tag.finish.byte] ++ be 8 checksum ++ magicBytes

/-- A batch as the writer appends it: nothing for no items. -/
def writeBatch (items : List Item) (seqno : Nat) : Bytes :=
  if items.length = 0 then []
  else
    let body := items.flatMap (serializeMarkerItem coding)
    Marker.encode coding (.start items.length seqno .none) ++ body ++
      Marker.encode coding (.finish (coding.xxh3 body))

end Encode

section Decode

variable (coding : TreeCoding)

def readU8 : Bytes → Except DecodeError (UInt8 × Bytes)
  | [] => .error .unexpectedEof
  | b :: rest => .ok (b, rest)

def readExact (n : Nat) (bytes : Bytes) : Except DecodeError (Bytes × Bytes) :=
  if n ≤ bytes.length then .ok (bytes.take n, bytes.drop n) else .error .unexpectedEof

def readBe (w : Nat) (bytes : Bytes) : Except DecodeError (Nat × Bytes) := do
  let (digits, rest) ← readExact w bytes
  .ok (fromBe digits, rest)

def fromUtf8 (bytes : Bytes) : Except DecodeError String :=
  match String.fromUTF8? ⟨bytes.toArray⟩ with
  | some s => .ok s
  | none => .error .utf8

def valueTypeFrom (b : UInt8) : Except DecodeError ValueType :=
  match coding.valueTypeOf b with
  | some t => .ok t
  | none => .error (.invalidTag "ValueType" b)

def Marker.decodeStart (bytes : Bytes) : Except DecodeError (Marker × Bytes) := do
  let (itemCount, rest) ← readBe 4 bytes
  let (seqno, rest) ← readBe 8 rest
  let (compression, rest) ← coding.decodeCompression rest
  if compression = .none then .ok (.start itemCount seqno compression, rest)
  else .error (.panicked "invalid compression type")

def Marker.decodeItem (bytes : Bytes) : Except DecodeError (Marker × Bytes) := do
  let (valueType, rest) ← readU8 bytes
  let valueType ← valueTypeFrom coding valueType
  let (partitionLen, rest) ← readBe 1 rest
  let (partitionBytes, rest) ← readExact partitionLen rest
  let partition ← fromUtf8 partitionBytes
  let (keyLen, rest) ← readBe 2 rest
  let (key, rest) ← readExact keyLen rest
  let (valueLen, rest) ← readBe 4 rest
  let (value, rest) ← readExact valueLen rest
  .ok (.item { partition, key, value, valueType }, rest)

def Marker.decodeFinish (bytes : Bytes) : Except DecodeError (Marker × Bytes) := do
  let (checksum, rest) ← readBe 8 bytes
  let (magic, rest) ← readExact magicBytes.length rest
  if magic = magicBytes then .ok (.finish checksum, rest) else .error .invalidTrailer

def Marker.decodeBody : Tag → Bytes → Except DecodeError (Marker × Bytes)
  | .start => Marker.decodeStart coding
  | .item => Marker.decodeItem coding
  | .finish => Marker.decodeFinish

def Marker.decode (bytes : Bytes) : Except DecodeError (Marker × Bytes) := do
  let (tag, rest) ← readU8 bytes
  let tag ← Tag.tryFrom tag
  Marker.decodeBody coding tag rest

end Decode

section Exact

variable {coding : TreeCoding} {x rest : Bytes}

theorem readU8_ok {b : UInt8} : readU8 x = .ok (b, rest) ↔ x = b :: rest := by
  cases x with
  | nil => simp [readU8]
  | cons c x => simp [readU8]

theorem readExact_ok {n : Nat} {bytes : Bytes} :
    readExact n x = .ok (bytes, rest) ↔ bytes.length = n ∧ x = bytes ++ rest := by
  rw [readExact]
  constructor
  · intro h
    split at h
    case isTrue hn =>
      simp only [Except.ok.injEq, Prod.mk.injEq] at h
      obtain ⟨rfl, rfl⟩ := h
      exact ⟨List.length_take_of_le hn, (List.take_append_drop n x).symm⟩
    case isFalse => cases h
  · rintro ⟨rfl, rfl⟩
    simp

theorem readBe_ok {w n : Nat} : readBe w x = .ok (n, rest) ↔ n < 256 ^ w ∧ x = be w n ++ rest := by
  simp only [readBe, bind_ok, Prod.exists, readExact_ok, Except.ok.injEq, Prod.mk.injEq]
  constructor
  · rintro ⟨digits, _, ⟨hlen, rfl⟩, rfl, rfl⟩
    exact ⟨fromBe_lt (Nat.le_of_eq hlen), by rw [be_fromBe hlen]⟩
  · rintro ⟨hn, rfl⟩
    exact ⟨be w n, rest, ⟨be_length w n, rfl⟩, fromBe_be hn, rfl⟩

theorem mk_toArray_eq {bytes : Bytes} {b : ByteArray} :
    (⟨bytes.toArray⟩ : ByteArray) = b ↔ bytes = b.data.toList := by
  obtain ⟨data⟩ := b
  rw [ByteArray.mk.injEq, List.toArray_eq_iff]

theorem fromUtf8_ok {bytes : Bytes} {s : String} : fromUtf8 bytes = .ok s ↔ bytes = utf8 s := by
  rw [utf8, String.toUTF8, ← mk_toArray_eq, fromUtf8, String.fromUTF8?]
  by_cases h : ByteArray.IsValidUTF8 ⟨bytes.toArray⟩
  · simp only [h, dite_true, Except.ok.injEq]
    exact String.toByteArray_inj.symm
  · simp only [h, dite_false, reduceCtorEq, false_iff]
    intro heq
    exact h (heq ▸ s.isValidUTF8)

theorem valueTypeFrom_ok (hc : coding.Lawful) {b : UInt8} {t : ValueType} :
    valueTypeFrom coding b = .ok t ↔ b = coding.valueTypeByte t := by
  have hlaw := @hc.valueType b t
  rw [valueTypeFrom, @eq_comm _ b, ← hlaw]
  cases coding.valueTypeOf b <;> simp

theorem Tag.tryFrom_ok {b : UInt8} {tag : Tag} : Tag.tryFrom b = .ok tag ↔ b = tag.byte := by
  rw [Tag.tryFrom]
  constructor
  · intro h
    split at h
    · cases h; assumption
    · split at h
      · cases h; assumption
      · split at h
        · cases h; assumption
        · cases h
  · rintro rfl
    cases tag <;> rfl

def Marker.Fits : Marker → Prop
  | .start itemCount seqno compression =>
      itemCount < 2 ^ 32 ∧ seqno < 2 ^ 64 ∧ compression = .none
  | .item entry => entry.Fits
  | .finish checksum => checksum < 2 ^ 64

theorem decodeStart_ok (hc : coding.Lawful) {m : Marker} :
    Marker.decodeStart coding x = .ok (m, rest) ↔ ∃ itemCount seqno, itemCount < 256 ^ 4 ∧
      seqno < 256 ^ 8 ∧ m = .start itemCount seqno .none ∧
      x = be 4 itemCount ++ (be 8 seqno ++ (coding.encodeCompression .none ++ rest)) := by
  simp only [Marker.decodeStart, bind_ok, Prod.exists, readBe_ok]
  constructor
  · rintro ⟨itemCount, _, ⟨hcount, rfl⟩, seqno, _, ⟨hseqno, rfl⟩, compression, _, hcomp, h⟩
    split at h
    case isTrue hnone =>
      subst hnone
      simp only [Except.ok.injEq, Prod.mk.injEq] at h
      obtain ⟨rfl, rfl⟩ := h
      exact ⟨itemCount, seqno, hcount, hseqno, rfl, by rw [hc.compression.mp hcomp]⟩
    case isFalse => cases h
  · rintro ⟨itemCount, seqno, hcount, hseqno, rfl, rfl⟩
    exact ⟨itemCount, _, ⟨hcount, rfl⟩, seqno, _, ⟨hseqno, rfl⟩, .none, rest,
      hc.compression.mpr rfl, rfl⟩

theorem decodeItem_ok (hc : coding.Lawful) {m : Marker} :
    Marker.decodeItem coding x = .ok (m, rest) ↔ ∃ entry : Item, entry.Fits ∧ m = .item entry ∧
      x = coding.valueTypeByte entry.valueType ::
        (be 1 (utf8 entry.partition).length ++ (utf8 entry.partition ++
          (be 2 entry.key.length ++ (entry.key ++
            (be 4 entry.value.length ++ (entry.value ++ rest)))))) := by
  simp only [Marker.decodeItem, bind_ok, Prod.exists, readU8_ok, readBe_ok, readExact_ok,
    valueTypeFrom_ok hc, fromUtf8_ok, Except.ok.injEq, Prod.mk.injEq]
  constructor
  · rintro ⟨_, _, rfl, valueType, rfl, _, _, ⟨hplen, rfl⟩, _, _, ⟨rfl, rfl⟩, partition, rfl, _, _,
      ⟨hklen, rfl⟩, key, _, ⟨rfl, rfl⟩, _, _, ⟨hvlen, rfl⟩, value, _, ⟨rfl, rfl⟩, rfl, rfl⟩
    exact ⟨⟨partition, key, value, valueType⟩, ⟨hplen, hklen, hvlen⟩, rfl, rfl⟩
  · rintro ⟨entry, ⟨hplen, hklen, hvlen⟩, rfl, rfl⟩
    exact ⟨_, _, rfl, entry.valueType, rfl, _, _, ⟨hplen, rfl⟩, _, _, ⟨rfl, rfl⟩, entry.partition,
      rfl, _, _, ⟨hklen, rfl⟩, entry.key, _, ⟨rfl, rfl⟩, _, _, ⟨hvlen, rfl⟩, entry.value, _,
      ⟨rfl, rfl⟩, rfl, rfl⟩

theorem decodeFinish_ok {m : Marker} :
    Marker.decodeFinish x = .ok (m, rest) ↔ ∃ checksum, checksum < 256 ^ 8 ∧ m = .finish checksum ∧
      x = be 8 checksum ++ (magicBytes ++ rest) := by
  simp only [Marker.decodeFinish, bind_ok, Prod.exists, readBe_ok, readExact_ok]
  constructor
  · rintro ⟨checksum, _, ⟨hsum, rfl⟩, magic, _, ⟨-, rfl⟩, h⟩
    split at h
    case isTrue hmagic =>
      subst hmagic
      simp only [Except.ok.injEq, Prod.mk.injEq] at h
      obtain ⟨rfl, rfl⟩ := h
      exact ⟨checksum, hsum, rfl, rfl⟩
    case isFalse => cases h
  · rintro ⟨checksum, hsum, rfl, rfl⟩
    exact ⟨checksum, _, ⟨hsum, rfl⟩, magicBytes, rest, ⟨rfl, rfl⟩, rfl⟩

theorem decode_ok {m : Marker} : Marker.decode coding x = .ok (m, rest) ↔
    ∃ tag body, x = Tag.byte tag :: body ∧ Marker.decodeBody coding tag body = .ok (m, rest) := by
  simp only [Marker.decode, bind_ok, Prod.exists, readU8_ok, Tag.tryFrom_ok]
  constructor
  · rintro ⟨_, body, rfl, tag, rfl, h⟩
    exact ⟨tag, body, rfl, h⟩
  · rintro ⟨tag, body, rfl, h⟩
    exact ⟨_, body, rfl, tag, rfl, h⟩

def Marker.tag : Marker → Tag
  | .start _ _ _ => .start
  | .item _ => .item
  | .finish _ => .finish

theorem encode_eq (coding : TreeCoding) (m : Marker) :
    ∃ body, m.encode coding = m.tag.byte :: body := by
  cases m with
  | start itemCount seqno compression => exact ⟨_, rfl⟩
  | item entry => exact ⟨_, rfl⟩
  | finish checksum => exact ⟨_, rfl⟩

theorem decode_exact (hc : coding.Lawful) :
    Exact (Marker.encode coding) Marker.Fits (Marker.decode coding) where
  nonempty := by
    intro m _ hnil
    obtain ⟨body, hbody⟩ := encode_eq coding m
    rw [hnil] at hbody
    cases hbody
  iff := by
    intro x rest m
    rw [decode_ok]
    constructor
    · rintro ⟨tag, body, rfl, h⟩
      cases tag with
      | start =>
          obtain ⟨itemCount, seqno, hcount, hseqno, rfl, rfl⟩ := (decodeStart_ok hc).mp h
          exact ⟨⟨hcount, hseqno, rfl⟩, by simp [Marker.encode]⟩
      | item =>
          obtain ⟨entry, hfits, rfl, rfl⟩ := (decodeItem_ok hc).mp h
          exact ⟨hfits, by simp [Marker.encode, serializeMarkerItem]⟩
      | finish =>
          obtain ⟨checksum, hsum, rfl, rfl⟩ := decodeFinish_ok.mp h
          exact ⟨hsum, by simp [Marker.encode]⟩
    · rintro ⟨hfits, rfl⟩
      cases m with
      | start itemCount seqno compression =>
          obtain ⟨hcount, hseqno, rfl⟩ := hfits
          refine ⟨.start, _, by rw [Marker.encode]; simp, (decodeStart_ok hc).mpr
            ⟨itemCount, seqno, hcount, hseqno, rfl, rfl⟩⟩
      | item entry =>
          refine ⟨.item, _, by rw [Marker.encode]; simp [serializeMarkerItem], (decodeItem_ok hc).mpr
            ⟨entry, hfits, rfl, rfl⟩⟩
      | finish checksum =>
          refine ⟨.finish, _, by rw [Marker.encode]; simp, decodeFinish_ok.mpr
            ⟨checksum, hfits, rfl, rfl⟩⟩

theorem decode_zeros {k : Nat} {m : Marker} :
    Marker.decode coding (List.replicate k 0) ≠ .ok (m, rest) := by
  intro h
  obtain ⟨tag, body, hx, -⟩ := decode_ok.mp h
  cases k with
  | zero => cases hx
  | succ k =>
      rw [List.replicate_succ] at hx
      cases tag <;> cases hx

theorem encode_finish_getLast (coding : TreeCoding) (checksum : Nat) :
    ∃ front, (Marker.finish checksum).encode coding = front ++ [2] :=
  ⟨[Tag.finish.byte] ++ be 8 checksum ++ [70, 74, 76], by simp [Marker.encode, magicBytes]⟩

/-- A marker cut short, with zeros after the cut, decodes to a marker of the same kind
or not at all, and an end marker to nothing: the last byte of its trailer is missing. -/
theorem decode_torn (hc : coding.Lawful) {m m' : Marker} (hm : m.Fits) {j k : Nat}
    (hj : j < (m.encode coding).length)
    (h : Marker.decode coding ((m.encode coding).take j ++ List.replicate k 0) = .ok (m', rest)) :
    m'.tag = m.tag ∧ m'.tag ≠ .finish ∧ ∃ k', rest = List.replicate k' 0 := by
  obtain ⟨used, hpad, hused, henc⟩ := (decode_exact hc).torn hm hj h
  have hzero : ∀ b ∈ used, b = 0 := by
    intro b hb
    have hmem : b ∈ List.replicate k (0 : UInt8) := hpad ▸ List.mem_append_left _ hb
    exact List.eq_of_mem_replicate hmem
  refine ⟨?_, ?_, rest.length, ?_⟩
  · obtain ⟨body, hbody⟩ := encode_eq coding m
    obtain ⟨body', hbody'⟩ := encode_eq coding m'
    rw [hbody, hbody'] at henc
    cases j with
    | zero =>
        rw [List.take_zero, List.nil_append] at henc
        have htag := hzero m'.tag.byte (henc ▸ List.mem_cons_self)
        cases hkind : m'.tag <;> rw [hkind] at htag <;> cases htag
    | succ j =>
        rw [List.take_succ_cons, List.cons_append] at henc
        have hbyte := (List.cons.inj henc).1
        cases hkind : m.tag <;> cases hkind' : m'.tag <;> rw [hkind, hkind'] at hbyte <;>
          first | rfl | cases hbyte
  · intro hfinish
    cases m' with
    | start itemCount seqno compression => cases hfinish
    | item entry => cases hfinish
    | finish checksum =>
        obtain ⟨front, hfront⟩ := encode_finish_getLast coding checksum
        have hlast := congrArg List.getLast? (hfront.symm.trans henc)
        rw [List.getLast?_append, List.getLast?_append] at hlast
        obtain ⟨last, hsome⟩ := Option.ne_none_iff_exists'.mp
          (fun hnone => hused (List.getLast?_eq_none_iff.mp hnone))
        have := hzero last (List.mem_of_getLast? hsome)
        rw [hsome, this] at hlast
        simp at hlast
  · rw [List.eq_replicate_iff]
    refine ⟨rfl, fun b hb => ?_⟩
    have hmem : b ∈ List.replicate k (0 : UInt8) := hpad ▸ List.mem_append_right _ hb
    exact List.eq_of_mem_replicate hmem

def Returns {α : Type} (y : Except DecodeError α) : Prop :=
  ∀ message, y ≠ .error (.panicked message)

theorem Returns.bind {α β : Type} {y : Except DecodeError α} {f : α → Except DecodeError β}
    (hy : Returns y) (hf : ∀ a, Returns (f a)) : Returns (y >>= f) := by
  intro message h
  rcases bind_error.mp h with h | ⟨a, -, h⟩
  · exact hy message h
  · exact hf a message h

theorem returns_ok {α : Type} (a : α) : Returns (.ok a) := by
  intro message h
  cases h

theorem returns_readExact (n : Nat) (bytes : Bytes) : Returns (readExact n bytes) := by
  intro message h
  rw [readExact] at h
  split at h <;> cases h

theorem returns_readBe (w : Nat) (bytes : Bytes) : Returns (readBe w bytes) :=
  (returns_readExact w bytes).bind fun _ => returns_ok _

theorem returns_readU8 (bytes : Bytes) : Returns (readU8 bytes) := by
  intro message h
  cases bytes <;> cases h

theorem returns_decodeItem (bytes : Bytes) : Returns (Marker.decodeItem coding bytes) := by
  have hvalueType : ∀ b, Returns (valueTypeFrom coding b) := by
    intro b message h
    rw [valueTypeFrom] at h
    cases hb : coding.valueTypeOf b <;> rw [hb] at h <;> cases h
  have hutf8 : ∀ bytes, Returns (fromUtf8 bytes) := by
    intro bytes message h
    rw [fromUtf8] at h
    cases hb : String.fromUTF8? ⟨bytes.toArray⟩ <;> rw [hb] at h <;> cases h
  exact (returns_readU8 _).bind fun _ => (hvalueType _).bind fun _ => (returns_readBe _ _).bind fun _ =>
    (returns_readExact _ _).bind fun _ => (hutf8 _).bind fun _ => (returns_readBe _ _).bind fun _ =>
    (returns_readExact _ _).bind fun _ => (returns_readBe _ _).bind fun _ =>
    (returns_readExact _ _).bind fun _ => returns_ok _

theorem returns_tryFrom (b : UInt8) : Returns (Tag.tryFrom b) := by
  intro message h
  rw [Tag.tryFrom] at h
  split at h
  · cases h
  · split at h
    · cases h
    · split at h <;> cases h

theorem returns_decodeFinish (bytes : Bytes) : Returns (Marker.decodeFinish bytes) := by
  refine (returns_readBe _ _).bind fun _ => (returns_readExact _ _).bind fun ⟨magic, rest⟩ => ?_
  by_cases hmagic : magic = magicBytes
  · simp only [hmagic, if_true]
    exact returns_ok _
  · simp only [hmagic, if_false]
    intro message h
    cases h

theorem decodeStart_panicked (hc : coding.Lawful) {message : String}
    (h : Marker.decodeStart coding x = .error (.panicked message)) : ∃ b ∈ x.drop 12, b ≠ 0 := by
  rcases bind_error.mp h with h₁ | ⟨⟨itemCount, rest₁⟩, hcount, h₁⟩
  · exact absurd h₁ (returns_readBe _ _ _)
  rcases bind_error.mp h₁ with h₂ | ⟨⟨seqno, rest₂⟩, hseqno, h₂⟩
  · exact absurd h₂ (returns_readBe _ _ _)
  rcases bind_error.mp h₂ with h₃ | ⟨⟨compression, rest₃⟩, hcomp, h₃⟩
  · obtain ⟨-, rfl⟩ := readBe_ok.mp hcount
    obtain ⟨-, rfl⟩ := readBe_ok.mp hseqno
    rw [← List.append_assoc, List.drop_left' (by simp)]
    exact hc.panicked h₃
  · obtain ⟨-, rfl⟩ := readBe_ok.mp hcount
    obtain ⟨-, rfl⟩ := readBe_ok.mp hseqno
    rw [← List.append_assoc, List.drop_left' (by simp)]
    cases compression with
    | none => cases h₃
    | other => exact hc.other hcomp

theorem decode_panicked (hc : coding.Lawful) {message : String}
    (h : Marker.decode coding x = .error (.panicked message)) :
    x.head? = some Tag.start.byte ∧ ∃ b ∈ x.drop 13, b ≠ 0 := by
  rcases bind_error.mp h with h₁ | ⟨⟨b, body⟩, hb, h₁⟩
  · exact absurd h₁ (returns_readU8 _ _)
  rcases bind_error.mp h₁ with h₂ | ⟨tag, htag, h₂⟩
  · exact absurd h₂ (returns_tryFrom _ _)
  obtain rfl := readU8_ok.mp hb
  obtain rfl := Tag.tryFrom_ok.mp htag
  cases tag with
  | start => exact ⟨rfl, decodeStart_panicked hc h₂⟩
  | item => exact absurd h₂ (returns_decodeItem _ _)
  | finish => exact absurd h₂ (returns_decodeFinish _ _)

theorem returns_torn (hc : coding.Lawful) {m : Marker} (hm : m.Fits) (j k : Nat) :
    Returns (Marker.decode coding ((m.encode coding).take j ++ List.replicate k 0)) := by
  intro message h
  obtain ⟨hhead, b, hb, hne⟩ := decode_panicked hc h
  apply hne
  rw [List.drop_append] at hb
  rcases List.mem_append.mp hb with hb | hb
  · rw [List.drop_take] at hb
    have hdrop := List.mem_of_mem_take hb
    have htag : m.tag.byte = Tag.start.byte := by
      obtain ⟨body, hbody⟩ := encode_eq coding m
      rw [hbody] at hhead hb
      cases j with
      | zero => rw [Nat.zero_sub, List.take_zero] at hb; cases hb
      | succ j => exact Option.some.inj hhead
    cases m with
    | item entry => cases htag
    | finish checksum => cases htag
    | start itemCount seqno compression =>
        obtain ⟨-, -, rfl⟩ := hm
        rw [Marker.encode, List.drop_left' (by simp)] at hdrop
        exact hc.zeros b hdrop
  · exact List.eq_of_mem_replicate (List.mem_of_mem_drop hb)

end Exact

end Nightfrost.JournalFormat
