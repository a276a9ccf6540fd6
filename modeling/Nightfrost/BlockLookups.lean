import Nightfrost.HexText

namespace Nightfrost.BlockLookups

open ByteOrder Tables Partitions Domain Schema WriteBlock ExceptFold MovingStore Api EntityLog BlockStep
  BlockRun Timeline Endpoints DenseIds Lookups HexText

/-- The text of a hash has no letter, and the number that it reads as fits a height. -/
def ReadsAsHeight (hash : ByteArr 32) : Prop :=
  (∀ d ∈ nibbles hash.val, d < 10) ∧ decimal (nibbles hash.val) < 2 ^ 64

section Resolve

variable {σ : Nat → Store} {blocks : Nat → List DerivedBlock} {libs : AddressLibs} {t : Nat}
  {hash : ByteArr 32}

theorem bytes_ne_nil (hash : ByteArr 32) : hash.val ≠ [] := by
  intro he
  have hlength := hash.property
  rw [he] at hlength
  cases hlength

theorem parse_hash (hash : ByteArr 32) :
    parseU64 (hexEncode hash.val) = none ↔ ¬ ReadsAsHeight hash := by
  rw [parseU64_hexEncode (bytes_ne_nil hash)]
  rw [ReadsAsHeight]
  split
  · rename_i hreads
    exact iff_of_false (Option.some_ne_none _) (not_not.mpr hreads)
  · rename_i hletters
    exact iff_of_true rfl hletters

theorem parse_height (hreads : ReadsAsHeight hash) :
    parseU64 (hexEncode hash.val) = some (decimal (nibbles hash.val)) := by
  rw [parseU64_hexEncode (bytes_ne_nil hash)]
  exact if_pos hreads

theorem block_read (h : Growing σ blocks) (t : Nat) {height : Nat} (hheight : height < 2 ^ 64) :
    Schema.block (σ t) height = (logOf (blocks t)).blocks[height]? := by
  obtain ⟨ids, hrun⟩ := h.run t
  have hrecords := (hrun.cursor (h.consecutive t)).records
  exact hrecords.get height hheight

theorem heightByHash (h : Growing σ blocks) (t : Nat) (hash : ByteArr 32) :
    (∃ height record, blockHeightByHash (σ t) hash.val = some height ∧
      (logOf (blocks t)).blocks[height]? = some record ∧ record.hash = hash) ∨
    (blockHeightByHash (σ t) hash.val = none ∧
      ∀ record ∈ (logOf (blocks t)).blocks, record.hash ≠ hash) := by
  obtain ⟨ids, hrun⟩ := h.run t
  have htable := Run.hashTable hrun (h.consecutive t)
  have hfield := logOf_block_field (f := BlockRecord.hash) (g := Block.hash) (fun _ _ _ => rfl) (blocks t)
  cases hget : blockHeightByHash (σ t) hash.val with
  | some height =>
      obtain ⟨d, hd, hhash⟩ := htable.entries _ _ hget
      have hrecord := hfield height
      rw [hd, Option.map_some] at hrecord
      obtain ⟨record, hrecord, hsame⟩ := Option.map_eq_some_iff.mp hrecord
      exact .inl ⟨height, record, rfl, hrecord, hsame.trans (Subtype.ext hhash)⟩
  | none =>
      refine .inr ⟨rfl, fun record hrecord he => ?_⟩
      obtain ⟨height, hheight⟩ := List.mem_iff_getElem?.mp hrecord
      have hblock := hfield height
      rw [hheight, Option.map_some] at hblock
      obtain ⟨d, hd, hsame⟩ := Option.map_eq_some_iff.mp hblock.symm
      obtain ⟨last, hlast, -⟩ := htable.found height d hd
      rw [hsame, he] at hlast
      rw [blockHeightByHash] at hget
      rw [hget] at hlast
      cases hlast

/-- The answer to a block reference is a block, or that there is none. -/
def Yields (libs : AddressLibs) (σ : Nat → Store) (t : Nat) (text : String)
    (found : Option (Nat × BlockRecord)) : Prop :=
  match found with
  | some entry => ∃ t', (resolveBlock libs text).run σ t = .ok (entry, t')
  | none => (resolveBlock libs text).run σ t = .error (.notFound "block not found")

theorem resolveBlock_run {libs : AddressLibs} {text : String} {t₁ height : Nat}
    (h : (resolveHeight libs text).run σ t = .ok (height, t₁)) :
    (Schema.block (σ t₁) height = none →
      (resolveBlock libs text).run σ t = .error (.notFound "block not found")) ∧
    ∀ record, Schema.block (σ t₁) height = some record →
      (resolveBlock libs text).run σ t = .ok ((height, record), t₁ + 1) := by
  rw [resolveBlock, run_bind, h]
  dsimp only
  rw [run_bind, run_query]
  dsimp only
  constructor
  · intro hnone
    rw [hnone]
    rfl
  · intro record hrecord
    rw [hrecord]
    rfl

theorem yields_height (h : Growing σ blocks) (libs : AddressLibs) (t : Nat) {text : String}
    {height : Nat} (htext : parseU64 text = some height) (hheight : height < 2 ^ 64) :
    Yields libs σ t text (((logOf (blocks t)).blocks[height]?).map (height, ·)) := by
  have hread := block_read h t hheight
  have hresolve : (resolveHeight libs text).run σ t = .ok (height, t) := by
    rw [resolveHeight, htext]
    rfl
  obtain ⟨hmissing, hfound⟩ := resolveBlock_run hresolve
  cases hget : (logOf (blocks t)).blocks[height]? with
  | none => exact hmissing (hread.trans hget)
  | some record => exact ⟨t + 1, hfound record (hread.trans hget)⟩

/-- What a hash stands for: a block that has it, if there is one. -/
def Names (records : List BlockRecord) (hash : ByteArr 32) : Option (Nat × BlockRecord) → Prop
  | some (height, record) => records[height]? = some record ∧ record.hash = hash
  | none => ∀ record ∈ records, record.hash ≠ hash

theorem resolveHeight_hash (hl : ReadsHex libs) (hletters : ¬ ReadsAsHeight hash) :
    (blockHeightByHash (σ t) hash.val = none →
      (resolveHeight libs (hexEncode hash.val)).run σ t = .error (.notFound "block not found")) ∧
    ∀ height, blockHeightByHash (σ t) hash.val = some height →
      (resolveHeight libs (hexEncode hash.val)).run σ t = .ok (height, t + 1) := by
  have hfilter : (some hash.val).filter (fun hash => decide (hash.length = 32)) = some hash.val :=
    Option.filter_some_pos (decide_eq_true hash.property)
  rw [resolveHeight, (parse_hash hash).mpr hletters, hl hash.val]
  dsimp only
  rw [hfilter]
  dsimp only
  rw [run_bind, run_query]
  dsimp only
  constructor
  · intro hnone
    rw [hnone]
    rfl
  · intro height hheight
    rw [hheight]
    rfl

theorem yields_hash (h : Growing σ blocks) (hl : ReadsHex libs) (t : Nat)
    (hletters : ¬ ReadsAsHeight hash) : ∃ found,
    Yields libs σ t (hexEncode hash.val) found ∧ Names (logOf (blocks t)).blocks hash found := by
  obtain ⟨hnowhere, hsomewhere⟩ := resolveHeight_hash (σ := σ) (t := t) hl hletters
  rcases heightByHash h t hash with ⟨height, record, hheight, hrecord, hhash⟩ | ⟨hnone, hmissing⟩
  · have hbound : height < (blocks t).length := by
      rw [← logOf_blocks_length]
      exact (List.getElem?_eq_some_iff.mp hrecord).1
    obtain ⟨record', hrecord', hblock⟩ := h.block (Nat.le_succ t) hbound
    obtain rfl := Option.some.inj (hrecord'.symm.trans hrecord)
    obtain ⟨-, hfound⟩ := resolveBlock_run (hsomewhere height hheight)
    exact ⟨some (height, record'), ⟨t + 2, hfound record' hblock⟩, hrecord, hhash⟩
  · refine ⟨none, ?_, hmissing⟩
    rw [Yields, resolveBlock, run_bind, hnowhere hnone]

theorem Yields.unique {text : String} {found found' : Option (Nat × BlockRecord)}
    (h : Yields libs σ t text found) (h' : Yields libs σ t text found') : found = found' := by
  cases found with
  | none =>
      cases found' with
      | none => rfl
      | some entry' =>
          obtain ⟨t', hrun⟩ := h'
          rw [show (resolveBlock libs text).run σ t = _ from h] at hrun
          cases hrun
  | some entry =>
      obtain ⟨t', hrun⟩ := h
      cases found' with
      | none =>
          rw [show (resolveBlock libs text).run σ t = _ from h'] at hrun
          cases hrun
      | some entry' =>
          obtain ⟨t'', hrun'⟩ := h'
          obtain ⟨rfl, -⟩ := Prod.mk.inj (Except.ok.inj (hrun.symm.trans hrun'))
          rfl

/-- The answer to the text of a hash is the block with the hash. -/
def Faithful (libs : AddressLibs) (σ : Nat → Store) (blocks : Nat → List DerivedBlock) (t : Nat)
    (hash : ByteArr 32) : Prop :=
  ∃ found, Yields libs σ t (hexEncode hash.val) found ∧ Names (logOf (blocks t)).blocks hash found

/-- A text that reads as a height is answered rightly by accident only. -/
theorem faithful_iff (h : Growing σ blocks) (hl : ReadsHex libs) (t : Nat) (hash : ByteArr 32) :
    Faithful libs σ blocks t hash ↔ ¬ ReadsAsHeight hash ∨
      Names (logOf (blocks t)).blocks hash
        (((logOf (blocks t)).blocks[decimal (nibbles hash.val)]?).map (decimal (nibbles hash.val), ·)) := by
  by_cases hreads : ReadsAsHeight hash
  · have hheight := yields_height h libs t (parse_height hreads) hreads.2
    constructor
    · rintro ⟨found, hfound, hnames⟩
      rw [hheight.unique hfound]
      exact .inr hnames
    · rintro (hletters | hnames)
      · exact absurd hreads hletters
      · exact ⟨_, hheight, hnames⟩
  · exact iff_of_true (yields_hash h hl t hreads) (.inl hreads)

end Resolve

section Results

variable {σ : Nat → Store} {blocks : Nat → List DerivedBlock} {libs : AddressLibs}

/-- A block reference is taken for a hash exactly where its text does not read as
a height. Then it leads to the block with the hash, and the text of a height to
the block at the height. -/
theorem resolve_block (h : Growing σ blocks) (hl : ReadsHex libs) (t : Nat) :
    (∀ hash, (Faithful libs σ blocks t hash ∧ parseU64 (hexEncode hash.val) = none ↔
        ¬ ReadsAsHeight hash) ∧
      (Faithful libs σ blocks t hash ↔ ¬ ReadsAsHeight hash ∨
        Names (logOf (blocks t)).blocks hash (((logOf (blocks t)).blocks[decimal (nibbles hash.val)]?).map
          (decimal (nibbles hash.val), ·)))) ∧
    ∀ height < 2 ^ 64, Yields libs σ t (toString height)
      (((logOf (blocks t)).blocks[height]?).map (height, ·)) := by
  refine ⟨fun hash => ⟨?_, faithful_iff h hl t hash⟩, fun height hheight => ?_⟩
  · rw [parse_hash]
    exact ⟨And.right, fun hletters => ⟨yields_hash h hl t hletters, hletters⟩⟩
  · exact yields_height h libs t (parseU64_toString hheight) hheight

end Results

section Genesis

/-- The first block of a chain, whose parent hash is all zeros. -/
def genesisBlock : DerivedBlock :=
  ⟨{ emptyBlock 0 zero_lt_u64 with hash := .filled 32 0xab, parentHash := .filled 32 0 }, [],
    fun _ happlied => absurd happlied List.not_mem_nil⟩

def genesisStore : Store × Counters :=
  (writeBlock fresh genesisBlock.block [] [] [] (Counters.load fresh)).toOption.getD
    (fresh, Counters.load fresh)

theorem run_genesisStore : Run [genesisBlock] genesisStore.1 genesisStore.2 :=
  Run.start.step genesisBlock [] [] (by decide +kernel) (ok_of_toBool (by decide +kernel) (fresh, Counters.load fresh))

theorem growing_genesis : Growing (fun _ => genesisStore.1) (fun _ => [genesisBlock]) := by
  refine growing_still run_genesisStore fun i d hd => ?_
  cases i with
  | zero =>
      cases hd
      rfl
  | succ i => cases hd

/-- The parent hash that the first block shows is no block's, and leads to that block. -/
theorem resolve_parent_of_genesis :
    Growing (fun _ => genesisStore.1) (fun _ => [genesisBlock]) ∧ ReadsHex hexLibs ∧
      (∀ record ∈ (logOf [genesisBlock]).blocks, record.parentHash = .filled 32 0 ∧
        record.hash ≠ .filled 32 0) ∧
      (∃ record t', (resolveBlock hexLibs (hexEncode (ByteArr.filled 32 0).val)).run
        (fun _ => genesisStore.1) 0 = .ok ((0, record), t') ∧ record.hash = .filled 32 0xab) ∧
      ¬ Faithful hexLibs (fun _ => genesisStore.1) (fun _ => [genesisBlock]) 0 (.filled 32 0) := by
  have hreads : ReadsAsHeight (.filled 32 0) := by
    rw [ReadsAsHeight]
    decide
  have hzero : decimal (nibbles (ByteArr.filled 32 0).val) = 0 := by decide
  have hyields := yields_height growing_genesis hexLibs 0 (parse_height hreads) hreads.2
  rw [hzero] at hyields
  refine ⟨growing_genesis, hexLibs_readsHex, by decide, ?_, ?_⟩
  · obtain ⟨t', hrun⟩ := hyields
    exact ⟨_, t', hrun, rfl⟩
  · rw [faithful_iff growing_genesis hexLibs_readsHex, hzero]
    rintro (hletters | ⟨-, hhash⟩)
    · exact hletters hreads
    · revert hhash
      decide

theorem resolve_genesis : Faithful hexLibs (fun _ => genesisStore.1) (fun _ => [genesisBlock]) 0
    (.filled 32 0xab) := by
  have hletters : ¬ ReadsAsHeight (.filled 32 0xab) := by
    rw [ReadsAsHeight]
    decide
  exact (((resolve_block growing_genesis hexLibs_readsHex 0).1 _).2).mpr (.inl hletters)

end Genesis

end Nightfrost.BlockLookups
