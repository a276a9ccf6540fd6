import Nightfrost.BlockAuthors

namespace Nightfrost.BlockStream

open ByteOrder Domain ExceptFold FinalizedBlocks BlockAuthors

def zeroHash : H256 := .filled 32 0

section Linear

/-- The node serves one finalized chain, from genesis to the height `top`. -/
structure LinearChain (node : Node) (chain : Nat → NodeBlock) (top : Nat) : Prop where
  atHeight : ∀ h, h ≤ top → node.blockAtHeight h = .ok (chain h)
  atHash : ∀ h, h ≤ top → node.blockAt (chain h).block.hash = .ok (chain h)
  genesis : node.genesisHash = (chain 0).block.hash
  height : ∀ h, h ≤ top → (chain h).block.height = h
  parent : ∀ h, h < top → (chain (h + 1)).block.parentHash = (chain h).block.hash
  genesisParent : (chain 0).block.parentHash = zeroHash
  distinct : ∀ h h', h ≤ top → h' ≤ top → (chain h).block.hash = (chain h').block.hash → h = h'
  nonzero : ∀ h, h ≤ top → (chain h).block.hash ≠ zeroHash

def headOf (b : NodeBlock) : Head := ⟨b.block.hash, b.block.height, b.block.parentHash⟩

def startHeight (after : Option BlockRef) : Nat := (after.map (fun a => a.height + 1)).getD 0

variable {node : Node} {chain : Nat → NodeBlock} {top chunk margin : Nat}

theorem LinearChain.heights (hl : LinearChain node chain top) {safeHeight : Nat}
    (hsafe : safeHeight ≤ top) : ServesHeights node chain safeHeight :=
  ⟨fun h hlt => hl.atHeight h (by omega), fun h hlt => hl.height h (by omega)⟩

theorem LinearChain.linked (hl : LinearChain node chain top) {safeHeight : Nat}
    (hsafe : safeHeight ≤ top) : Linked chain safeHeight :=
  fun h hlt => hl.parent h (by omega)

theorem LinearChain.parent_ne (hl : LinearChain node chain top) {s h : Nat} (hlt : s ≤ h)
    (htop : h < top) : (chain h).block.hash ≠ (chain s).block.parentHash := by
  intro he
  cases s with
  | zero =>
      rw [hl.genesisParent] at he
      exact hl.nonzero h htop.le he
  | succ s =>
      rw [hl.parent s (by omega)] at he
      have := hl.distinct h s htop.le (by omega) he
      omega

theorem backward_linear (hl : LinearChain node chain top) {s h fuel : Nat} (hle : s ≤ h)
    (htop : h ≤ top) (hfuel : h - s ≤ fuel) (hashes : List H256) :
    backward node (chain s).block.parentHash zeroHash fuel (chain h).block.parentHash hashes =
      .done (hashes ++ (List.range' s (h - s)).reverse.map (fun i => (chain i).block.hash)) := by
  induction h, hle using Nat.le_induction generalizing fuel hashes with
  | base =>
      rw [Nat.sub_self, List.range'_zero, List.reverse_nil, List.map_nil, List.append_nil]
      cases fuel <;> rw [backward, if_neg (fun h => h.1 rfl)]
  | succ h hle ih =>
      obtain ⟨fuel, rfl⟩ : ∃ m, fuel = m + 1 := ⟨fuel - 1, by omega⟩
      have hparent := hl.parent h (by omega)
      rw [backward, hparent, if_pos ⟨hl.parent_ne hle (by omega), hl.nonzero h (by omega)⟩,
        hl.atHash h (by omega)]
      dsimp only
      rw [ih (by omega) (by omega), Nat.succ_sub hle, List.range'_1_concat, Nat.add_sub_cancel' hle,
        List.reverse_append, List.map_append, List.append_assoc]
      rfl

variable {α β κ : Type} {fetch : κ → Except NodeError NodeBlock}

/-- A part of a stream that yields `n` blocks from a height on, up to one whose
digest does not decode. -/
def Covers (chain : Nat → NodeBlock) (bound h n : Nat) (Q : α → Prop) (x : Yields α) : Prop :=
  MadeFrom chain h x.items ∧
    ((∃ a, x.ending = .done a ∧ x.items.length = n ∧ Q a) ∨
      ∃ e, x.ending = .failed e ∧ x.items.length < n ∧ Undecodable chain bound e)

theorem Covers.andThen {bound h n m : Nat} {Q : α → Prop} {R : β → Prop} {x : Yields α}
    {f : α → Yields β} (hx : Covers chain bound h n Q x)
    (hf : ∀ a, Q a → Covers chain bound (h + n) m R (f a)) :
    Covers chain bound h (n + m) R (x.andThen f) := by
  obtain ⟨hmade, ⟨a, hdone, hlen, hq⟩ | ⟨e, hfailed, hlen, hbad⟩⟩ := hx
  · obtain ⟨hmade', hending⟩ := hf a hq
    rw [Yields.andThen]
    rw [hdone]
    refine ⟨hmade.append (hlen ▸ hmade'), ?_⟩
    rcases hending with ⟨b, hdone', hlen', hr⟩ | ⟨e, hfailed', hlen', hbad⟩
    · exact .inl ⟨b, hdone', by rw [List.length_append, hlen, hlen'], hr⟩
    · refine .inr ⟨e, hfailed', ?_, hbad⟩
      rw [List.length_append, hlen]
      exact Nat.add_lt_add_left hlen' n
  · rw [Yields.andThen]
    rw [hfailed]
    exact ⟨hmade, .inr ⟨e, rfl, hlen.trans_le (Nat.le_add_right n m), hbad⟩⟩

theorem makeAll_covers {bound h : Nat} {ks : List κ} (hbound : h + ks.length ≤ bound)
    (hfetch : ∀ i k, ks[i]? = some k → fetch k = .ok (chain (h + i))) (authorities : Option Authorities) :
    Covers chain bound h ks.length (fun _ => True) (makeAll fetch ks authorities) := by
  induction ks generalizing h authorities with
  | nil =>
      refine ⟨?_, .inl ⟨authorities, rfl, rfl, trivial⟩⟩
      intro i made hget
      cases hget
  | cons k ks ih =>
      rw [List.length_cons] at hbound
      have hfirst : fetchAndMake fetch authorities k = makeBlock authorities (chain h) := by
        rw [fetchAndMake, hfetch 0 k rfl]
        rfl
      rw [makeAll, hfirst]
      cases hmade : makeBlock authorities (chain h) with
      | error e =>
          refine ⟨?_, .inr ⟨e, rfl, Nat.succ_pos _, ?_⟩⟩
          · intro i made hget
            cases hget
          rcases bind_error.mp hmade with hauthor | ⟨author, -, hnone⟩
          · exact ⟨h, _, by omega, hauthor⟩
          · cases hnone
      | ok r =>
          obtain ⟨author, -, hblock, -⟩ := makeBlock_ok.mp hmade
          obtain ⟨hrest, hending⟩ := ih (h := h + 1) (by omega) (fun i k hget => by
            rw [hfetch (i + 1) k hget, Nat.add_right_comm]
            rfl) r.2
          refine ⟨?_, ?_⟩
          · intro i made hget
            cases i with
            | zero =>
                obtain rfl := Option.some.inj hget
                exact ⟨author, hblock⟩
            | succ i =>
                obtain ⟨author', hmade'⟩ := hrest i made hget
                rw [Nat.add_right_comm] at hmade'
                exact ⟨author', hmade'⟩
          · rcases hending with ⟨next, hdone, hlen', -⟩ | ⟨e, hfailed, hlen', hbad⟩
            · exact .inl ⟨next, hdone, congrArg Nat.succ hlen', trivial⟩
            · exact .inr ⟨e, hfailed, Nat.succ_lt_succ hlen', hbad⟩

def ResumesBelow (chain : Nat → NodeBlock) (after : Option BlockRef) (first : Nat) : Prop :=
  ∀ ref, after = some ref → ref.height < first ∧ ref.hash = (chain ref.height).block.hash

theorem ResumesBelow.afterHash (hl : LinearChain node chain top) {after : Option BlockRef} {first : Nat}
    (hresume : ResumesBelow chain after first) (htop : first ≤ top) :
    (after.map BlockRef.hash).getD (.filled 32 0) = (chain (startHeight after)).block.parentHash := by
  cases after with
  | none => exact hl.genesisParent.symm
  | some ref =>
      obtain ⟨hlt, hhash⟩ := hresume ref rfl
      exact hhash.trans (hl.parent ref.height (by omega)).symm

theorem catchUp_covers (hl : LinearChain node chain top) (hchunk : 0 < chunk) {first fuel : Nat}
    (htop : first ≤ top) (hfuel : first < fuel) {after : Option BlockRef}
    (hresume : ResumesBelow chain after first) :
    Covers chain (first + 1) (startHeight after) (first + 1 - startHeight after) (fun _ => True)
      (catchUp node chunk margin fuel after (headOf (chain first))) := by
  have hafter := hresume.afterHash hl htop
  have hstart : startHeight after ≤ first := by
    cases after with
    | none => exact Nat.zero_le _
    | some ref => exact (hresume ref rfl).1
  have hfirst : (chain first).block.height = first := hl.height first htop
  obtain ⟨safeHeight, hsafe⟩ : ∃ safeHeight, safeHeight = max (first - margin) (startHeight after) :=
    ⟨_, rfl⟩
  have hle : startHeight after ≤ safeHeight ∧ safeHeight ≤ first := by omega
  have hne : (headOf (chain first)).hash ≠ (after.map BlockRef.hash).getD (.filled 32 0) := by
    rw [hafter]
    intro he
    by_cases heq : startHeight after = 0
    · rw [heq, hl.genesisParent] at he
      exact hl.nonzero first htop he
    · obtain ⟨s, hs⟩ : ∃ s, startHeight after = s + 1 := ⟨startHeight after - 1, by omega⟩
      rw [hs, hl.parent s (by omega)] at he
      have := hl.distinct first s htop (by omega) he
      omega
  have hheight : (headOf (chain first)).height = first := hfirst
  rw [catchUp]
  dsimp only
  rw [if_neg hne, hheight]
  change Covers _ _ _ _ _ ((forward node chunk (max (first - margin) (startHeight after)) fuel
    ⟨startHeight after, after.map (fun _ => (after.map BlockRef.hash).getD (.filled 32 0)),
      none⟩).andThen _)
  rw [← hsafe, hafter]
  have hknown : ParentKnown chain safeHeight ⟨startHeight after,
      after.map (fun _ => (chain (startHeight after)).block.parentHash), none⟩ := by
    intro x hx _
    obtain ⟨_, -, rfl⟩ := Option.map_eq_some_iff.mp hx
    rfl
  have hrounds : safeHeight ≤ (⟨startHeight after,
      after.map (fun _ => (chain (startHeight after)).block.parentHash), none⟩ : Forward).height +
        fuel := by
    show safeHeight ≤ startHeight after + fuel
    omega
  obtain ⟨hmade, hending⟩ := forward_linked (hl.heights (hle.2.trans htop))
    (hl.linked (hle.2.trans htop)) hchunk hrounds hle.1 hknown
  have hforward : Covers chain (first + 1) (startHeight after) (safeHeight - startHeight after)
      (fun st => st.lastForwardHash.getD (chain (startHeight after)).block.parentHash =
        (chain safeHeight).block.parentHash)
      (forward node chunk safeHeight fuel ⟨startHeight after,
        after.map (fun _ => (chain (startHeight after)).block.parentHash), none⟩) := by
    refine ⟨hmade, ?_⟩
    rcases hending with ⟨st', hdone, hlen, hhash⟩ | ⟨e, hfailed, hlen, h, set, hlt, hbad⟩
    · refine .inl ⟨st', hdone, hlen, ?_⟩
      rcases hhash with ⟨hsame, hhash⟩ | ⟨b, hb, -, hhash⟩
      · rw [hhash, show safeHeight = startHeight after from hsame.symm]
        cases after <;> rfl
      · rw [hhash, ← hb, hl.parent b (by omega)]
        rfl
    · exact .inr ⟨e, hfailed, hlen, h, set, by omega, hbad⟩
  have hcount : first + 1 - startHeight after =
      (safeHeight - startHeight after) + ((first - safeHeight) + 1) := by omega
  rw [hcount]
  refine hforward.andThen fun st hst => ?_
  rw [hst, hl.genesis, hl.atHash 0 (Nat.zero_le _), ofExcept_ok, hl.genesisParent,
    Nat.add_sub_cancel' hle.1]
  have hback := backward_linear hl hle.2 htop (show first - safeHeight ≤ fuel by omega) []
  rw [show (headOf (chain first)).parentHash = (chain first).block.parentHash from rfl, hback,
    List.nil_append]
  change Covers _ _ _ _ _ ((makeAll node.blockAt _ _).andThen _)
  rw [← List.map_reverse, List.reverse_reverse]
  have hhashes : ((List.range' safeHeight (first - safeHeight)).map
      (fun i => (chain i).block.hash)).length = first - safeHeight := by
    rw [List.length_map, List.length_range']
  have hwalk : Covers chain (first + 1) safeHeight (first - safeHeight) (fun _ => True)
      (makeAll node.blockAt ((List.range' safeHeight (first - safeHeight)).map
        (fun i => (chain i).block.hash)) st.authorities) := by
    nth_rewrite 1 [← hhashes]
    refine makeAll_covers (by rw [hhashes]; omega) (fun i k hget => ?_) st.authorities
    obtain ⟨hi, rfl⟩ := List.getElem?_eq_some_iff.mp hget
    rw [hhashes] at hi
    rw [List.getElem_map, List.getElem_range'_1]
    exact hl.atHash _ (by omega)
  refine hwalk.andThen fun authorities _ => ?_
  rw [Nat.add_sub_cancel' hle.2]
  refine makeAll_covers (by show first + 1 ≤ _; omega) (fun i k hget => ?_) authorities
  cases i with
  | zero =>
      obtain rfl := Option.some.inj hget
      exact hl.atHash first htop
  | succ i => cases hget

end Linear

section Branches

/-- The blocks that a node knows, on whatever branch: a hash stands for one block,
and the parent of a block, if it has one, is a block one below it. -/
structure BlockTree (known : NodeBlock → Prop) : Prop where
  distinct : ∀ a b, known a → known b → a.block.hash = b.block.hash → a.block = b.block
  nonzero : ∀ b, known b → b.block.hash ≠ zeroHash
  parent : ∀ b, known b → (b.block.parentHash = zeroHash ∧ b.block.height = 0) ∨
    ∃ a, known a ∧ b.block.parentHash = a.block.hash ∧ b.block.height = a.block.height + 1

structure ServesKnown (known : NodeBlock → Prop) (node : Node) : Prop where
  atHash : ∀ hash b, node.blockAt hash = .ok b → known b
  atHeight : ∀ height b, node.blockAtHeight height = .ok b → known b

def MadeOf (known : NodeBlock → Prop) (made : Block) : Prop :=
  ∃ b author, known b ∧ made = { b.block with author }

variable {known : NodeBlock → Prop} {node : Node} {α β κ : Type}

def AllMade (known : NodeBlock → Prop) (x : Yields α) : Prop :=
  ∀ block ∈ x.items, MadeOf known block

theorem AllMade.andThen {x : Yields α} {f : α → Yields β} (hx : AllMade known x)
    (hf : ∀ a, AllMade known (f a)) : AllMade known (x.andThen f) := by
  rw [Yields.andThen]
  cases x.ending with
  | done a =>
      intro made hmem
      rcases List.mem_append.mp hmem with hmem | hmem
      · exact hx made hmem
      · exact hf a made hmem
  | failed e => exact hx
  | unfinished => exact hx

theorem allMade_nil (ending : Ending α) : AllMade known ⟨[], ending⟩ :=
  fun _ hmem => absurd hmem List.not_mem_nil

theorem allMade_ofExcept (x : Except NodeError α) : AllMade known (ofExcept x) := by
  cases x <;> exact allMade_nil _

theorem fetchAndMake_made {fetch : κ → Except NodeError NodeBlock}
    (hfetch : ∀ k b, fetch k = .ok b → known b) {authorities next : Option Authorities} {k : κ}
    {made : Block} (h : fetchAndMake fetch authorities k = .ok (made, next)) : MadeOf known made := by
  obtain ⟨b, hb, hmake⟩ := bind_ok.mp h
  obtain ⟨author, -, rfl, -⟩ := makeBlock_ok.mp hmake
  exact ⟨b, author, hfetch k b hb, rfl⟩

theorem makeAll_made {fetch : κ → Except NodeError NodeBlock}
    (hfetch : ∀ k b, fetch k = .ok b → known b) (ks : List κ) (authorities : Option Authorities) :
    AllMade known (makeAll fetch ks authorities) := by
  induction ks generalizing authorities with
  | nil => exact allMade_nil _
  | cons k ks ih =>
      rw [makeAll]
      cases hfirst : fetchAndMake fetch authorities k with
      | error e => exact allMade_nil _
      | ok r =>
          intro made hmem
          rcases List.mem_cons.mp hmem with rfl | hmem
          · exact fetchAndMake_made hfetch hfirst
          · exact ih r.2 made hmem

theorem consumeChunk_items {chunk : List (Block × Option Authorities)} {st : Forward} {made : Block}
    (hmem : made ∈ (consumeChunk chunk st).items) : ∃ entry ∈ chunk, made = entry.1 := by
  induction chunk generalizing st with
  | nil => exact absurd hmem List.not_mem_nil
  | cons entry chunk ih =>
      obtain ⟨first, next⟩ := entry
      cases hmismatch : st.lastForwardHash.filter (· ≠ first.parentHash) with
      | some expected =>
          rw [consumeChunk_mismatch hmismatch] at hmem
          exact absurd hmem List.not_mem_nil
      | none =>
          cases next with
          | none =>
              rw [consumeChunk_session hmismatch] at hmem
              exact ⟨_, List.mem_cons_self, List.mem_singleton.mp hmem⟩
          | some set =>
              rw [consumeChunk_quiet hmismatch] at hmem
              rcases List.mem_cons.mp hmem with rfl | hmem
              · exact ⟨_, List.mem_cons_self, rfl⟩
              · obtain ⟨entry, hentry, he⟩ := ih hmem
                exact ⟨entry, List.mem_cons_of_mem _ hentry, he⟩

theorem mapM_mem {f : κ → Except NodeError α} {ks : List κ} {as : List α} (h : ks.mapM f = .ok as)
    {a : α} (hmem : a ∈ as) : ∃ k, f k = .ok a := by
  induction ks generalizing as with
  | nil =>
      obtain rfl := Except.ok.inj h
      exact absurd hmem List.not_mem_nil
  | cons k ks ih =>
      rw [List.mapM_cons] at h
      obtain ⟨first, hfirst, h⟩ := bind_ok.mp h
      obtain ⟨rest, hrest, h⟩ := bind_ok.mp h
      obtain rfl := Except.ok.inj h
      rcases List.mem_cons.mp hmem with rfl | hmem
      · exact ⟨k, hfirst⟩
      · exact ih hrest hmem

theorem forward_made (hs : ServesKnown known node) (chunk safeHeight fuel : Nat) (st : Forward) :
    AllMade known (forward node chunk safeHeight fuel st) := by
  induction fuel generalizing st with
  | zero =>
      rw [forward]
      split <;> exact allMade_nil _
  | succ fuel ih =>
      rw [forward]
      split
      · cases hchunk : fetchChunk node st.authorities st.height
            (min (st.height + chunk) safeHeight) with
        | error e =>
            dsimp only
            rw [hchunk]
            exact allMade_nil _
        | ok entries =>
            dsimp only
            rw [hchunk, ofExcept_ok]
            refine AllMade.andThen (fun made hmem => ?_) ih
            obtain ⟨entry, hentry, rfl⟩ := consumeChunk_items hmem
            obtain ⟨height, hmake⟩ := mapM_mem hchunk hentry
            exact fetchAndMake_made hs.atHeight hmake
      · exact allMade_nil _

theorem catchUp_made (hs : ServesKnown known node) (chunk margin fuel : Nat)
    (after : Option BlockRef) (first : Head) :
    AllMade known (catchUp node chunk margin fuel after first) := by
  rw [catchUp]
  dsimp only
  split
  · exact allMade_nil _
  · refine (forward_made hs _ _ _ _).andThen fun st => (allMade_ofExcept _).andThen fun genesis => ?_
    refine AllMade.andThen (allMade_nil _) fun hashes => ?_
    exact (makeAll_made hs.atHash _ _).andThen fun authorities => makeAll_made hs.atHash _ _

theorem followHeads_made (hs : ServesKnown known node) (events : List Event)
    (lastHeight lastYieldedHeight : Option Nat) (authorities : Option Authorities) :
    AllMade known (followHeads node events lastHeight lastYieldedHeight authorities) := by
  induction events generalizing lastHeight lastYieldedHeight authorities with
  | nil => exact allMade_nil _
  | cons event events ih =>
      cases event with
      | head h =>
          rw [followHeads]
          split
          · exact ih _ _ _
          · cases hmake : fetchAndMake node.blockAt authorities h.hash with
            | error e => exact allMade_nil _
            | ok r =>
                intro made hmem
                rcases List.mem_cons.mp hmem with rfl | hmem
                · exact fetchAndMake_made hs.atHash hmake
                · exact ih _ _ _ made hmem
      | disconnected => exact ih _ _ _
      | error e => exact allMade_nil _
      | ended => exact allMade_nil _
      | timeout => exact ih _ _ _

theorem receiveFirst_items (lastHeight : Option Nat) (events : List Event) :
    (receiveFirst lastHeight events).items = [] := by
  induction events with
  | nil => rfl
  | cons event events ih =>
      cases event with
      | head h =>
          rw [receiveFirst]
          split
          · exact ih
          · rfl
      | disconnected => exact ih
      | error e => rfl
      | ended => rfl
      | timeout => exact ih

theorem finalizedBlocks_made (hs : ServesKnown known node) (chunk margin fuel : Nat)
    (after : Option BlockRef) (events : List Event) :
    AllMade known (finalizedBlocks node chunk margin fuel after events) := by
  refine AllMade.andThen (fun made hmem => ?_) fun first => ?_
  · rw [receiveFirst_items] at hmem
    exact absurd hmem List.not_mem_nil
  · cases first with
    | none => exact allMade_nil _
    | some received =>
        exact (catchUp_made hs _ _ _ _ _).andThen fun authorities => followHeads_made hs _ _ _ _

def LinkedFrom : H256 → List Block → Prop
  | _, [] => True
  | parent, block :: blocks => block.parentHash = parent ∧ LinkedFrom block.hash blocks

def expectedParent (highest : Option BlockRef) : H256 := (highest.map BlockRef.hash).getD zeroHash

def okBlocks (items : List (Except NodeError Block)) : List Block := items.filterMap Except.toOption

/-- What a stretch of the stream keeps: its blocks are linked behind the highest
block before it, and the highest block behind it is the last of them. -/
structure Stretch (known : NodeBlock → Prop) (highest : Option BlockRef) (blocks : List Block)
    (highest' : Option BlockRef) : Prop where
  linked : LinkedFrom (expectedParent highest) blocks
  made : ∀ block ∈ blocks, MadeOf known block
  last : highest' = (blocks.getLast?.map blockRef).or highest

theorem acceptLinked_stretch {blocks : List Block} (hmade : ∀ block ∈ blocks, MadeOf known block)
    (highest : Option BlockRef) :
    Stretch known highest (acceptLinked highest blocks).1 (acceptLinked highest blocks).2.1 := by
  induction blocks generalizing highest with
  | nil => exact ⟨trivial, hmade, rfl⟩
  | cons block blocks ih =>
      rw [acceptLinked]
      split
      · exact ⟨trivial, fun block hmem => absurd hmem List.not_mem_nil, rfl⟩
      · rename_i hparent
        have hrest := ih (fun b hb => hmade b (List.mem_cons_of_mem _ hb)) (some (blockRef block))
        refine ⟨⟨not_not.mp hparent, hrest.linked⟩, ?_, ?_⟩
        · intro b hb
          rcases List.mem_cons.mp hb with rfl | hb
          · exact hmade b List.mem_cons_self
          · exact hrest.made b hb
        · apply hrest.last.trans
          rw [List.getLast?_cons]
          cases (acceptLinked (some (blockRef block)) blocks).1.getLast? <;> rfl

theorem LinkedFrom.append {parent : H256} {blocks blocks' : List Block}
    (h : LinkedFrom parent blocks)
    (h' : LinkedFrom ((blocks.getLast?.map Block.hash).getD parent) blocks') :
    LinkedFrom parent (blocks ++ blocks') := by
  induction blocks generalizing parent with
  | nil => exact h'
  | cons block blocks ih =>
      refine ⟨h.1, ih h.2 ?_⟩
      rw [List.getLast?_cons] at h'
      cases hlast : blocks.getLast? with
      | none =>
          rw [hlast] at h'
          exact h'
      | some last =>
          rw [hlast] at h'
          exact h'

theorem Stretch.append {highest highest' highest'' : Option BlockRef} {blocks blocks' : List Block}
    (h : Stretch known highest blocks highest') (h' : Stretch known highest' blocks' highest'') :
    Stretch known highest (blocks ++ blocks') highest'' := by
  refine ⟨h.linked.append ?_, ?_, ?_⟩
  · have hexpected : expectedParent highest' =
        (blocks.getLast?.map Block.hash).getD (expectedParent highest) := by
      rw [h.last, expectedParent]
      cases blocks.getLast? <;> rfl
    rw [← hexpected]
    exact h'.linked
  · intro block hmem
    rcases List.mem_append.mp hmem with hmem | hmem
    · exact h.made block hmem
    · exact h'.made block hmem
  · rw [h'.last, h.last, List.getLast?_append]
    cases blocks'.getLast? <;> cases blocks.getLast? <;> rfl

theorem okBlocks_append (items items' : List (Except NodeError Block)) :
    okBlocks (items ++ items') = okBlocks items ++ okBlocks items' :=
  List.filterMap_append

theorem okBlocks_ok (blocks : List Block) : okBlocks (blocks.map Except.ok) = blocks := by
  rw [okBlocks, List.filterMap_map]
  exact List.filterMap_some

theorem nodeBlocks_stretch (chunk margin : Nat) {sessions : List Session}
    (hs : ∀ session ∈ sessions, ServesKnown known session.node) (highest : Option BlockRef) :
    ∃ highest', Stretch known highest (okBlocks (nodeBlocks chunk margin sessions highest)) highest' := by
  induction sessions generalizing highest with
  | nil => exact ⟨highest, trivial, fun block hmem => absurd hmem List.not_mem_nil, rfl⟩
  | cons session sessions ih =>
      have hrest := ih fun s hmem => hs s (List.mem_cons_of_mem _ hmem)
      have hstretch := acceptLinked_stretch (finalizedBlocks_made (hs session List.mem_cons_self)
        chunk margin session.fuel highest session.events) highest
      obtain ⟨highest'', hlater⟩ :=
        hrest (acceptLinked highest (finalizedBlocks session.node chunk margin session.fuel highest
          session.events).items).2.1
      rw [nodeBlocks]
      dsimp only
      split
      · split
        · rw [okBlocks_append, okBlocks_ok]
          exact ⟨_, hstretch.append hlater⟩
        · rw [okBlocks_append, okBlocks_ok]
          exact ⟨_, hstretch.append hlater⟩
        · rw [okBlocks_ok]
          exact ⟨_, hstretch⟩
      · rw [okBlocks_append, okBlocks_ok]
        exact ⟨_, hstretch.append hlater⟩

def ResumesAt (known : NodeBlock → Prop) (highest : Option BlockRef) : Prop :=
  ∀ ref, highest = some ref → ∃ a, known a ∧ ref = blockRef a.block

theorem heights_of_linked (ht : BlockTree known) {parent : H256} {height : Nat} {blocks : List Block}
    (hparent : (parent = zeroHash ∧ height = 0) ∨
      ∃ a, known a ∧ parent = a.block.hash ∧ height = a.block.height + 1)
    (hlinked : LinkedFrom parent blocks) (hmade : ∀ block ∈ blocks, MadeOf known block) :
    blocks.map Block.height = List.range' height blocks.length := by
  induction blocks generalizing parent height with
  | nil => rfl
  | cons block blocks ih =>
      obtain ⟨b, author, hb, hblock⟩ := hmade block List.mem_cons_self
      have hnamed : b.block.parentHash = parent := by
        rw [← hlinked.1, hblock]
      have hheight : b.block.height = height := by
        rcases hparent with ⟨hzero, hheight⟩ | ⟨a, ha, hhash, hheight⟩
        · rcases ht.parent b hb with ⟨-, hgenesis⟩ | ⟨a, ha, hhash, -⟩
          · rw [hgenesis, hheight]
          · rw [hnamed, hzero] at hhash
            exact absurd hhash.symm (ht.nonzero a ha)
        · rcases ht.parent b hb with ⟨hzero, -⟩ | ⟨a', ha', hhash', hheight'⟩
          · rw [hnamed, hhash] at hzero
            exact absurd hzero (ht.nonzero a ha)
          · rw [hnamed, hhash] at hhash'
            rw [hheight', hheight, ht.distinct a a' ha ha' hhash']
      have hnext : (block.hash = zeroHash ∧ height + 1 = 0) ∨
          ∃ a, known a ∧ block.hash = a.block.hash ∧ height + 1 = a.block.height + 1 :=
        .inr ⟨b, hb, by rw [hblock], by rw [hheight]⟩
      have hrest := ih hnext hlinked.2 (fun b hmem => hmade b (List.mem_cons_of_mem _ hmem))
      rw [List.map_cons, List.length_cons, List.range'_succ, hrest, ← hheight, hblock]

theorem MadeOf.height (ht : BlockTree known) {a b : Block} (ha : MadeOf known a) (hb : MadeOf known b)
    (hhash : a.hash = b.hash) : a.height = b.height := by
  obtain ⟨a', _, hka, rfl⟩ := ha
  obtain ⟨b', _, hkb, rfl⟩ := hb
  have hsame := ht.distinct a' b' hka hkb hhash
  show a'.block.height = b'.block.height
  rw [hsame]

end Branches

section Results

/-- What the phases before the subscription yield: the heights from the one behind
the resume point to the first finalized block, each once and in order, unless a
digest of the chain does not decode. -/
structure CaughtUp (chain : Nat → NodeBlock) (after : Option BlockRef) (first : Nat)
    (x : Yields (Option Authorities)) : Prop where
  terminates : x.ending ≠ .unfinished
  blocks : MadeFrom chain (startHeight after) x.items
  heights : x.items.map Block.height = List.range' (startHeight after) x.items.length
  complete : (∃ authorities, x.ending = .done authorities) →
    x.items.length = first + 1 - startHeight after
  fails : ∀ e, x.ending = .failed e → Undecodable chain (first + 1) e

/-- One sequence of blocks behind the resume point, none twice and none left out. -/
structure OneChain (highest : Option BlockRef) (blocks : List Block) : Prop where
  linked : LinkedFrom (expectedParent highest) blocks
  heights : blocks.map Block.height = List.range' (startHeight highest) blocks.length
  once : (blocks.map Block.hash).Nodup

theorem caughtUp {node : Node} {chain : Nat → NodeBlock} {top chunk margin first fuel : Nat}
    {after : Option BlockRef} (hl : LinearChain node chain top) (hchunk : 0 < chunk)
    (htop : first ≤ top) (hfuel : first < fuel) (hresume : ResumesBelow chain after first) :
    CaughtUp chain after first (catchUp node chunk margin fuel after (headOf (chain first))) := by
  obtain ⟨x, hx⟩ : ∃ x, x = catchUp node chunk margin fuel after (headOf (chain first)) := ⟨_, rfl⟩
  have hcovers : Covers chain (first + 1) (startHeight after) (first + 1 - startHeight after)
      (fun _ => True) x := by
    rw [hx]
    exact catchUp_covers hl hchunk htop hfuel hresume
  rw [← hx]
  obtain ⟨hmade, hending⟩ := hcovers
  have hlen : x.items.length ≤ first + 1 - startHeight after := by
    rcases hending with ⟨_, -, hlen, -⟩ | ⟨_, -, hlen, -⟩
    · exact hlen.le
    · exact hlen.le
  refine ⟨?_, hmade, ?_, ?_, ?_⟩
  · rcases hending with ⟨_, hdone, -, -⟩ | ⟨_, hfailed, -, -⟩
    · rw [hdone]
      exact fun h => by cases h
    · rw [hfailed]
      exact fun h => by cases h
  · apply List.ext_getElem
    · rw [List.length_map, List.length_range']
    · intro i hi hi'
      rw [List.length_map] at hi
      obtain ⟨author, hblock⟩ := hmade i x.items[i] (List.getElem?_eq_getElem hi)
      rw [List.getElem_map, List.getElem_range'_1, hblock]
      exact hl.height _ (by omega)
  · rintro ⟨authorities, hdone⟩
    rcases hending with ⟨_, -, hlen, -⟩ | ⟨e, hfailed, -, -⟩
    · exact hlen
    · rw [hdone] at hfailed
      cases hfailed
  · intro e hfailed
    rcases hending with ⟨_, hdone, -, -⟩ | ⟨e', hfailed', -, hbad⟩
    · rw [hfailed] at hdone
      cases hdone
    · rw [hfailed] at hfailed'
      obtain rfl := Ending.failed.inj hfailed'
      exact hbad

theorem oneChain {known : NodeBlock → Prop} (ht : BlockTree known) {chunk margin : Nat}
    {sessions : List Session} (hs : ∀ session ∈ sessions, ServesKnown known session.node)
    {highest : Option BlockRef} (hresume : ResumesAt known highest) :
    OneChain highest (okBlocks (nodeBlocks chunk margin sessions highest)) := by
  obtain ⟨_, hlinked, hmade, -⟩ := nodeBlocks_stretch chunk margin hs highest
  have hstart : (expectedParent highest = zeroHash ∧ startHeight highest = 0) ∨
      ∃ a, known a ∧ expectedParent highest = a.block.hash ∧
        startHeight highest = a.block.height + 1 := by
    cases highest with
    | none => exact .inl ⟨rfl, rfl⟩
    | some ref =>
        obtain ⟨a, ha, rfl⟩ := hresume ref rfl
        exact .inr ⟨a, ha, rfl, rfl⟩
  have hheights := heights_of_linked ht hstart hlinked hmade
  refine ⟨hlinked, hheights, ?_⟩
  have hdistinct : ((okBlocks (nodeBlocks chunk margin sessions highest)).map Block.height).Nodup := by
    rw [hheights]
    exact List.nodup_range'
  rw [List.Nodup, List.pairwise_map] at hdistinct ⊢
  refine hdistinct.imp_of_mem fun ha hb hne hhash => ?_
  exact hne ((hmade _ ha).height ht (hmade _ hb) hhash)

/-- The stream of blocks is one chain without gaps and repeats: the catch-up on a
linear chain, and all of it whatever the subscriptions do. -/
theorem block_stream_one_chain :
    (∀ (node : Node) (chain : Nat → NodeBlock) (top chunk margin first fuel : Nat)
      (after : Option BlockRef), LinearChain node chain top → 0 < chunk → first ≤ top →
      first < fuel → ResumesBelow chain after first →
      CaughtUp chain after first (catchUp node chunk margin fuel after (headOf (chain first)))) ∧
    (∀ (known : NodeBlock → Prop) (chunk margin : Nat) (sessions : List Session)
      (highest : Option BlockRef), BlockTree known →
      (∀ session ∈ sessions, ServesKnown known session.node) → ResumesAt known highest →
      OneChain highest (okBlocks (nodeBlocks chunk margin sessions highest))) := by
  constructor
  · intro node chain top chunk margin first fuel after hl hchunk htop hfuel hresume
    exact caughtUp hl hchunk htop hfuel hresume
  · intro known chunk margin sessions highest ht hs hresume
    exact oneChain ht hs hresume

end Results

section Samples

def genesisHead : Head := headOf (sessionChain 0)

def sessionHead : Head := headOf (sessionChain 1)

theorem linear_session : LinearChain sessionNode sessionChain 1 := by
  refine ⟨fun h hle => if_pos (by omega), ?_, rfl, ?_, ?_, rfl, ?_, ?_⟩
  · intro h hle
    interval_cases h <;> rfl
  · intro h hle
    interval_cases h <;> rfl
  · intro h hlt
    obtain rfl : h = 0 := by omega
    rfl
  · intro h h' hle hle' he
    interval_cases h <;> interval_cases h' <;> first | rfl | exact absurd he (by decide)
  · intro h hle
    interval_cases h <;> decide

def sessionKnown (b : NodeBlock) : Prop := b = sessionChain 0 ∨ b = sessionChain 1

theorem tree_session : BlockTree sessionKnown := by
  refine ⟨?_, ?_, ?_⟩
  · rintro a b (rfl | rfl) (rfl | rfl) he <;> first | rfl | exact absurd he (by decide)
  · rintro b (rfl | rfl) <;> decide
  · rintro b (rfl | rfl)
    · exact .inl ⟨rfl, rfl⟩
    · exact .inr ⟨sessionChain 0, .inl rfl, rfl, rfl⟩

theorem serves_sessionKnown : ServesKnown sessionKnown sessionNode := by
  constructor
  · intro hash b hb
    rw [sessionNode] at hb
    dsimp only at hb
    split at hb
    · exact .inl (Except.ok.inj hb).symm
    · split at hb
      · exact .inr (Except.ok.inj hb).symm
      · cases hb
  · intro height b hb
    rw [sessionNode] at hb
    dsimp only at hb
    split at hb
    · interval_cases height
      · exact .inl (Except.ok.inj hb).symm
      · exact .inr (Except.ok.inj hb).symm
    · cases hb

/-- The heads behind genesis: genesis again, and the next block before and after
the subscription gets stuck. -/
def laterEvents : List Event :=
  [.head genesisHead, .disconnected, .head sessionHead, .timeout, .head sessionHead, .ended]

def stuckSession : Session := ⟨sessionNode, 2, .disconnected :: .head genesisHead :: laterEvents⟩

theorem block_stream_stuck :
    CaughtUp sessionChain none 1 (catchUp sessionNode catchUpChunk finalizationSafetyMargin 2 none
      sessionHead) ∧
    OneChain none (okBlocks (nodeBlocks catchUpChunk finalizationSafetyMargin
      [stuckSession, stuckSession] none)) ∧
    (okBlocks (nodeBlocks catchUpChunk finalizationSafetyMargin [stuckSession, stuckSession]
      none)).map Block.height = [0, 1] ∧
    (followHeads sessionNode laterEvents (some 0) (some 0) none).items.map Block.height = [1] := by
  obtain ⟨hcatch, hstream⟩ := block_stream_one_chain
  refine ⟨?_, ?_, by decide +kernel, by decide +kernel⟩
  · exact hcatch sessionNode sessionChain 1 catchUpChunk finalizationSafetyMargin 1 2 none
      linear_session (by decide) (Nat.le_refl _) (by decide) (fun ref hnone => by cases hnone)
  · refine hstream sessionKnown _ _ _ none tree_session (fun session hmem => ?_)
      (fun ref hnone => by cases hnone)
    have hnode : session.node = sessionNode := by
      rcases List.mem_cons.mp hmem with rfl | hmem
      · rfl
      · rw [List.mem_singleton.mp hmem]
        rfl
    rw [hnode]
    exact serves_sessionKnown

end Samples

end Nightfrost.BlockStream
