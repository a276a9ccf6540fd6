import Nightfrost.Domain
import Nightfrost.ExceptFold

namespace Nightfrost.DustEvents

open ByteOrder Domain ExceptFold

structure TreeInsertionPathEntry where
  goesLeft : Bool
  deriving DecidableEq

structure TreeInsertionPath (Leaf : Type) where
  leaf : Leaf
  path : List TreeInsertionPathEntry

/-- The ledger's qualified dust output, with its field elements as bytes and its
times in seconds. -/
structure LedgerDustOutput (Owner : Type) where
  initialValue : Nat
  owner : Owner
  nonce : ByteArr 32
  seq : Nat
  ctime : Nat
  backingNight : ByteArr 32
  mtIndex : Nat

/-- The ledger's generation info, which has no creation time. -/
structure LedgerGeneration (Owner : Type) where
  value : Nat
  owner : Owner
  nonce : ByteArr 32
  dtime : Nat

structure DustLib where
  Owner : Type
  serializeOwner : Owner → Except String Bytes
  serializePath : TreeInsertionPath (LedgerGeneration Owner) → Except String Bytes

def serializeAs (name : String) (x : Except String Bytes) : Except String Bytes :=
  match x with
  | .ok bytes => .ok bytes
  | .error _ => .error s!"cannot serialize {name}"

def LedgerEvent.dustInitialUtxo (raw : Bytes) (output : QualifiedDustOutput)
    (generationInfo : DustGenerationInfo) (generationIndex : Nat) : LedgerEvent :=
  ⟨.dust, raw, .dustInitialUtxo output generationInfo generationIndex, none, none⟩

def LedgerEvent.dustGenerationDtimeUpdate (raw : Bytes) (generationInfo : DustGenerationInfo)
    (generationIndex : Nat) (treeInsertionPath : Bytes) : LedgerEvent :=
  ⟨.dust, raw, .dustGenerationDtimeUpdate generationInfo generationIndex treeInsertionPath, none, none⟩

variable (lib : DustLib)

def makeDustInitialUtxo (keyName : String) (output : LedgerDustOutput lib.Owner)
    (generation : LedgerGeneration lib.Owner) (generationIndex : Nat) (raw : Bytes) :
    Except String LedgerEvent := do
  let owner ← serializeAs keyName (lib.serializeOwner output.owner)
  let qualifiedOutput : QualifiedDustOutput :=
    { initialValue := output.initialValue
      owner
      nonce := output.nonce
      seq := output.seq
      ctime := output.ctime
      backingNight := output.backingNight
      mtIndex := output.mtIndex }
  let owner ← serializeAs keyName (lib.serializeOwner generation.owner)
  let generationInfo : DustGenerationInfo :=
    { nightUtxoHash := output.backingNight
      value := generation.value
      owner
      nonce := generation.nonce
      ctime := output.ctime
      dtime := generation.dtime }
  .ok (LedgerEvent.dustInitialUtxo raw qualifiedOutput generationInfo generationIndex)

/-- `1u64 << depth`, whose shift is taken modulo the width. -/
def shiftOne (depth : Nat) : Nat := 1 <<< (depth % 64)

def addLevel (mtIndex : Nat) (level : TreeInsertionPathEntry × Nat) : Nat :=
  if ¬ level.1.goesLeft then mtIndex ||| shiftOne level.2 else mtIndex

/-- The index that the fold over the reversed path computes. -/
def mtIndexOf (path : List TreeInsertionPathEntry) : Nat := path.reverse.zipIdx.foldl addLevel 0

def makeDustGenerationDtimeUpdate (keyName pathName : String)
    (update : TreeInsertionPath (LedgerGeneration lib.Owner)) (raw : Bytes) :
    Except String LedgerEvent := do
  let generation := update.leaf
  let owner ← serializeAs keyName (lib.serializeOwner generation.owner)
  let generationInfo : DustGenerationInfo :=
    { nightUtxoHash := generation.nonce
      value := generation.value
      owner
      nonce := generation.nonce
      ctime := 0
      dtime := generation.dtime }
  let treeInsertionPath ← serializeAs pathName (lib.serializePath update)
  .ok (LedgerEvent.dustGenerationDtimeUpdate raw generationInfo (mtIndexOf update.path)
    treeInsertionPath)

def makeDustInitialUtxoV8 := makeDustInitialUtxo lib "DustPublicKeyV8"

def makeDustInitialUtxoV9 := makeDustInitialUtxo lib "DustPublicKeyV9"

def makeDustGenerationDtimeUpdateV8 :=
  makeDustGenerationDtimeUpdate lib "DustPublicKeyV8" "TreeInsertionPath<DustGenerationInfoV8>"

def makeDustGenerationDtimeUpdateV9 :=
  makeDustGenerationDtimeUpdate lib "DustPublicKeyV9" "TreeInsertionPath<DustGenerationInfoV9>"

abbrev DustLibs := LedgerVersion → DustLib

variable (libs : DustLibs)

def makeInitial (version : LedgerVersion) :
    LedgerDustOutput (libs version).Owner → LedgerGeneration (libs version).Owner → Nat → Bytes →
      Except String LedgerEvent :=
  match version with
  | .v8 => makeDustInitialUtxoV8 (libs .v8)
  | .v9 => makeDustInitialUtxoV9 (libs .v9)

def makeDtimeUpdate (version : LedgerVersion) :
    TreeInsertionPath (LedgerGeneration (libs version).Owner) → Bytes → Except String LedgerEvent :=
  match version with
  | .v8 => makeDustGenerationDtimeUpdateV8 (libs .v8)
  | .v9 => makeDustGenerationDtimeUpdateV9 (libs .v9)

section Made

variable {lib libs} {version : LedgerVersion} {event : LedgerEvent}

theorem serializeAs_ok {name : String} {x : Except String Bytes} {bytes : Bytes} :
    serializeAs name x = .ok bytes ↔ x = .ok bytes := by
  cases x <;> simp [serializeAs]

theorem makeDustInitialUtxo_ok {keyName : String} {output : LedgerDustOutput lib.Owner}
    {generation : LedgerGeneration lib.Owner} {generationIndex : Nat} {raw : Bytes}
    (h : makeDustInitialUtxo lib keyName output generation generationIndex raw = .ok event) :
    ∃ qualified owner, lib.serializeOwner generation.owner = .ok owner ∧
      event.attributes = .dustInitialUtxo qualified
        ⟨output.backingNight, generation.value, owner, generation.nonce, output.ctime,
          generation.dtime⟩ generationIndex := by
  simp only [makeDustInitialUtxo, bind_ok, serializeAs_ok, Except.ok.injEq] at h
  obtain ⟨first, -, owner, howner, rfl⟩ := h
  exact ⟨_, owner, howner, rfl⟩

theorem makeInitial_ok {output : LedgerDustOutput (libs version).Owner}
    {generation : LedgerGeneration (libs version).Owner} {generationIndex : Nat} {raw : Bytes}
    (h : makeInitial libs version output generation generationIndex raw = .ok event) :
    ∃ qualified owner, (libs version).serializeOwner generation.owner = .ok owner ∧
      event.attributes = .dustInitialUtxo qualified
        ⟨output.backingNight, generation.value, owner, generation.nonce, output.ctime,
          generation.dtime⟩ generationIndex := by
  cases version <;> exact makeDustInitialUtxo_ok h

theorem makeDustGenerationDtimeUpdate_ok {keyName pathName : String}
    {update : TreeInsertionPath (LedgerGeneration lib.Owner)} {raw : Bytes}
    (h : makeDustGenerationDtimeUpdate lib keyName pathName update raw = .ok event) :
    ∃ owner path, lib.serializeOwner update.leaf.owner = .ok owner ∧
      event.attributes = .dustGenerationDtimeUpdate
        ⟨update.leaf.nonce, update.leaf.value, owner, update.leaf.nonce, 0, update.leaf.dtime⟩
        (mtIndexOf update.path) path := by
  simp only [makeDustGenerationDtimeUpdate, bind_ok, serializeAs_ok, Except.ok.injEq] at h
  obtain ⟨owner, howner, path, -, rfl⟩ := h
  exact ⟨owner, path, howner, rfl⟩

theorem makeDtimeUpdate_ok {update : TreeInsertionPath (LedgerGeneration (libs version).Owner)}
    {raw : Bytes} (h : makeDtimeUpdate libs version update raw = .ok event) :
    ∃ owner path, (libs version).serializeOwner update.leaf.owner = .ok owner ∧
      event.attributes = .dustGenerationDtimeUpdate
        ⟨update.leaf.nonce, update.leaf.value, owner, update.leaf.nonce, 0, update.leaf.dtime⟩
        (mtIndexOf update.path) path := by
  cases version <;> exact makeDustGenerationDtimeUpdate_ok h

end Made

section Index

variable {libs} {path : List TreeInsertionPathEntry} {h i : Nat}

theorem testBit_foldl (levels : List TreeInsertionPathEntry) (depth acc b : Nat)
    (hlen : depth + levels.length ≤ 64) :
    ((levels.zipIdx depth).foldl addLevel acc).testBit b =
      (acc.testBit b || (decide (depth ≤ b) && (levels[b - depth]?.any (fun e => !e.goesLeft)))) := by
  induction levels generalizing depth acc with
  | nil => simp
  | cons entry levels ih =>
      rw [List.length_cons] at hlen
      rw [List.zipIdx_cons, List.foldl_cons, ih (depth + 1) _ (by omega)]
      have hone : (addLevel acc (entry, depth)).testBit b =
          (acc.testBit b || (decide (depth = b) && !entry.goesLeft)) := by
        rw [addLevel, shiftOne]
        rw [Nat.mod_eq_of_lt (by omega), Nat.one_shiftLeft]
        cases entry.goesLeft <;> simp [Nat.testBit_two_pow]
      rw [hone]
      rcases Nat.lt_trichotomy b depth with hlt | rfl | hgt
      · simp [Nat.not_le.mpr hlt, Nat.ne_of_gt hlt, show ¬ depth + 1 ≤ b by omega]
      · simp
      · obtain ⟨k, rfl⟩ := Nat.exists_eq_add_of_lt hgt
        have hk : depth + k + 1 - depth = k + 1 := by omega
        have hk' : depth + k + 1 - (depth + 1) = k := by omega
        simp [hk, hk', show depth ≠ depth + k + 1 by omega, show depth ≤ depth + k + 1 by omega,
          show depth + 1 ≤ depth + k + 1 by omega]

/-- The path of a leaf, from the leaf to the root. -/
structure PathOf (h i : Nat) (path : List TreeInsertionPathEntry) : Prop where
  length : path.length = h
  goesLeft : ∀ d entry, path[d]? = some entry → (entry.goesLeft = true ↔ i.testBit d = false)

theorem testBit_mtIndexOf (hpath : PathOf h i path) (hh : h ≤ 64) (b : Nat) :
    (mtIndexOf path).testBit b = (decide (b < h) && i.testBit (h - 1 - b)) := by
  have hlen := hpath.length
  rw [mtIndexOf, testBit_foldl _ _ _ _ (by rw [List.length_reverse]; omega)]
  by_cases hb : b < h
  · obtain ⟨entry, hentry⟩ : ∃ entry, path[h - 1 - b]? = some entry :=
      ⟨_, List.getElem?_eq_getElem (by omega)⟩
    have hleft := hpath.goesLeft _ _ hentry
    rw [Nat.sub_zero, List.getElem?_reverse (by omega), hlen, hentry]
    cases hbit : i.testBit (h - 1 - b) <;> simp_all
  · rw [List.getElem?_eq_none (by rw [List.length_reverse]; omega)]
    simp [hb]

/-- The index of a leaf reads the same from both ends. -/
def Palindromic (h i : Nat) : Prop := ∀ d, d < h → i.testBit d = i.testBit (h - 1 - d)

theorem mtIndexOf_eq_iff (hpath : PathOf h i path) (hh : h ≤ 64) (hi : i < 2 ^ h) :
    mtIndexOf path = i ↔ Palindromic h i := by
  constructor
  · intro heq d hd
    have hbit := testBit_mtIndexOf hpath hh d
    rw [heq] at hbit
    simpa [hd] using hbit
  · intro hpal
    apply Nat.eq_of_testBit_eq
    intro b
    rw [testBit_mtIndexOf hpath hh]
    by_cases hb : b < h
    · simp [hb, hpal b hb]
    · have hzero : i.testBit b = false :=
        Nat.testBit_lt_two_pow (Nat.lt_of_lt_of_le hi (Nat.pow_le_pow_right (by omega) (by omega)))
      simp [hb, hzero]

def generationIndexOf : LedgerEventAttributes → Option Nat
  | .dustInitialUtxo _ _ generationIndex => some generationIndex
  | .dustGenerationDtimeUpdate _ generationIndex _ => some generationIndex
  | _ => none

variable (libs) in
/-- A dtime update reports the index of its leaf exactly when that index is its
own bit reversal, and so for the index of the leaf's initial event. -/
theorem generation_index_iff (version : LedgerVersion)
    {update : TreeInsertionPath (LedgerGeneration (libs version).Owner)} {raw : Bytes}
    {event : LedgerEvent} (hh : h ≤ 64) (hi : i < 2 ^ h) (hpath : PathOf h i update.path)
    (hmake : makeDtimeUpdate libs version update raw = .ok event) :
    (generationIndexOf event.attributes = some i ↔ Palindromic h i) ∧
      ∀ (version' : LedgerVersion) (output : LedgerDustOutput (libs version').Owner)
        (generation : LedgerGeneration (libs version').Owner) (raw' : Bytes) (initial : LedgerEvent),
        makeInitial libs version' output generation i raw' = .ok initial →
        (generationIndexOf event.attributes = generationIndexOf initial.attributes ↔
          Palindromic h i) := by
  obtain ⟨owner, path, -, hattributes⟩ := makeDtimeUpdate_ok hmake
  have hindex : generationIndexOf event.attributes = some i ↔ Palindromic h i := by
    rw [hattributes, generationIndexOf, Option.some_inj]
    exact mtIndexOf_eq_iff hpath hh hi
  refine ⟨hindex, ?_⟩
  intro version' output generation raw' initial hinitial
  obtain ⟨qualified, owner', -, hattributes'⟩ := makeInitial_ok hinitial
  rw [hattributes', generationIndexOf]
  exact hindex

def pathOf (h i : Nat) : List TreeInsertionPathEntry :=
  (List.range h).map (fun d => ⟨!i.testBit d⟩)

theorem pathOf_path (h i : Nat) : PathOf h i (pathOf h i) := by
  refine ⟨by simp [pathOf], ?_⟩
  intro d entry hentry
  rw [pathOf, List.getElem?_map, Option.map_eq_some_iff] at hentry
  obtain ⟨d', hd, rfl⟩ := hentry
  obtain ⟨-, rfl⟩ := List.getElem?_eq_some_iff.mp hd
  simp

def plainLib : DustLib := ⟨Bytes, fun owner => .ok owner, fun _ => .ok []⟩

def plainUpdate (h i : Nat) : TreeInsertionPath (LedgerGeneration Bytes) :=
  ⟨⟨5, [7], .filled 32 1, 9⟩, pathOf h i⟩

theorem generation_index_middle : ∃ event,
    makeDtimeUpdate (fun _ => plainLib) .v8 (plainUpdate 3 2) [] = .ok event ∧
      (generationIndexOf event.attributes = some 2 ↔ Palindromic 3 2) :=
  ⟨_, rfl, (generation_index_iff (fun _ => plainLib) .v8 (by decide) (by decide)
    (pathOf_path 3 2) (rfl : makeDtimeUpdate (fun _ => plainLib) .v8 (plainUpdate 3 2) [] = _)).1⟩

/-- The second of four leaves is reported as the third. -/
theorem generation_index_reversed : ∃ event,
    PathOf 2 1 (plainUpdate 2 1).path ∧
      makeDtimeUpdate (fun _ => plainLib) .v8 (plainUpdate 2 1) [] = .ok event ∧
      generationIndexOf event.attributes = some 2 :=
  ⟨_, pathOf_path 2 1, rfl, rfl⟩

end Index

end Nightfrost.DustEvents
