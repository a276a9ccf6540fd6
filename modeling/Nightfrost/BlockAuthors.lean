import Nightfrost.FinalizedBlocks
import Nightfrost.ExceptFold

namespace Nightfrost.BlockAuthors

open ByteOrder Domain ExceptFold FinalizedBlocks

section Streams

variable {α β κ : Type}

@[simp] theorem ofExcept_ok (a : α) (f : α → Yields β) : (ofExcept (.ok a)).andThen f = f a := rfl

variable {fetch : κ → Except NodeError NodeBlock} {authorities : Option Authorities}

theorem makeAll_append (ks ks' : List κ) :
    makeAll fetch (ks ++ ks') authorities =
      (makeAll fetch ks authorities).andThen (makeAll fetch ks') := by
  induction ks generalizing authorities with
  | nil => rfl
  | cons k ks ih =>
      rw [List.cons_append, makeAll, makeAll]
      cases fetchAndMake fetch authorities k with
      | error e => rfl
      | ok r =>
          dsimp only
          rw [ih]
          rw [Yields.andThen]
          cases (makeAll fetch ks r.2).ending <;> rfl

theorem items_andThen (x : Yields α) (f : α → Yields β) : x.items <+: (x.andThen f).items := by
  rw [Yields.andThen]
  cases x.ending with
  | done a => exact List.prefix_append _ _
  | failed e => exact List.prefix_refl _
  | unfinished => exact List.prefix_refl _

end Streams

structure ServesHeights (node : Node) (chain : Nat → NodeBlock) (safeHeight : Nat) : Prop where
  atHeight : ∀ h, h < safeHeight → node.blockAtHeight h = .ok (chain h)
  height : ∀ h, h < safeHeight → (chain h).block.height = h

/-- The authority set changes with a session only. -/
structure Serves (node : Node) (chain : Nat → NodeBlock) (safeHeight : Nat) : Prop extends
    ServesHeights node chain safeHeight where
  authorities : ∀ h, h + 1 < safeHeight → (chain (h + 1)).newSession = false →
    (chain (h + 1)).authorities = (chain h).authorities

variable {node : Node} {chain : Nat → NodeBlock} {safeHeight chunk : Nat}

theorem fetchAndMake_served (hs : ServesHeights node chain safeHeight) {h : Nat} (hlt : h < safeHeight)
    (authorities : Option Authorities) :
    fetchAndMake node.blockAtHeight authorities h = makeBlock authorities (chain h) := by
  rw [fetchAndMake, hs.atHeight h hlt]
  rfl

theorem Serves.same_session (hs : Serves node chain safeHeight) {s h : Nat} (hle : s ≤ h)
    (hlt : h < safeHeight) (hquiet : ∀ i, s < i → i ≤ h → (chain i).newSession = false) :
    (chain h).authorities = (chain s).authorities := by
  induction h, hle using Nat.le_induction with
  | base => rfl
  | succ h hle ih =>
      rw [hs.authorities h hlt (hquiet (h + 1) (by omega) (Nat.le_refl _))]
      exact ih (by omega) (fun i h₁ h₂ => hquiet i h₁ (by omega))

/-- The author of the first session block of a chunk that starts at `s` without a
cache is the same under the set after it as under the set at the start. -/
def AgreesFrom (chain : Nat → NodeBlock) (chunk safeHeight s : Nat) : Prop :=
  ∀ b, s < b → b < min (s + chunk) safeHeight → (chain b).newSession = true →
    (∀ h, s ≤ h → h < b → (chain h).newSession = false) →
    (chain b).author (chain b).authorities = (chain b).author (chain s).authorities

/-- The heights at which a chunk starts without a cache: the first, when there is
none, and every one behind a session block. -/
def ColdStart (chain : Nat → NodeBlock) (start : Nat) (authorities : Option Authorities) (s : Nat) :
    Prop :=
  s = start ∧ authorities = none ∨ ∃ b, start ≤ b ∧ (chain b).newSession = true ∧ s = b + 1

def Agrees (chain : Nat → NodeBlock) (chunk safeHeight start : Nat)
    (authorities : Option Authorities) : Prop :=
  ∀ s, ColdStart chain start authorities s → AgreesFrom chain chunk safeHeight s

theorem makeBlock_ok {authorities next : Option Authorities} {b : NodeBlock} {made : Block} :
    makeBlock authorities b = .ok (made, next) ↔ ∃ author,
      b.author (authorities.getD b.authorities) = .ok author ∧ made = { b.block with author } ∧
        next = if b.newSession then none else some (authorities.getD b.authorities) := by
  rw [makeBlock]
  constructor
  · intro h
    obtain ⟨author, hauthor, hok⟩ := bind_ok.mp h
    obtain ⟨rfl, rfl⟩ := Prod.mk.inj (Except.ok.inj hok)
    exact ⟨author, hauthor, rfl, rfl⟩
  · rintro ⟨author, hauthor, rfl, rfl⟩
    exact bind_ok.mpr ⟨author, hauthor, rfl⟩

section Chunk

/-- The caches at a height inside a chunk that starts at `s`: the copy that the
chunk works with, and the one that a single pass has reached. -/
def Caches (chain : Nat → NodeBlock) (s h : Nat) (copied reached : Option Authorities) : Prop :=
  h = s ∧ reached = copied ∨ s < h ∧ reached = some (copied.getD (chain s).authorities)

variable {s h : Nat} {copied reached : Option Authorities}

theorem Caches.getD (hc : Caches chain s h copied reached) (hs : Serves node chain safeHeight)
    (hlt : h < safeHeight) (hquiet : ∀ i, s < i → i ≤ h → (chain i).newSession = false) :
    copied.getD (chain h).authorities = reached.getD (chain h).authorities := by
  rcases hc with ⟨-, rfl⟩ | ⟨hsh, rfl⟩
  · rfl
  · rw [hs.same_session hsh.le hlt hquiet]
    rfl

theorem Caches.next (hc : Caches chain s h copied reached) (hs : Serves node chain safeHeight)
    (hlt : h < safeHeight) (hquiet : ∀ i, s < i → i ≤ h → (chain i).newSession = false) :
    Caches chain s (h + 1) copied (some (copied.getD (chain h).authorities)) ∧
      reached.or (some (copied.getD (chain h).authorities)) =
        some (copied.getD (chain h).authorities) := by
  rcases hc with ⟨rfl, rfl⟩ | ⟨hsh, rfl⟩
  · refine ⟨.inr ⟨Nat.lt_succ_self _, rfl⟩, ?_⟩
    cases reached <;> rfl
  · have hsame := hs.same_session hsh.le hlt hquiet
    rw [hsame]
    exact ⟨.inr ⟨by omega, rfl⟩, rfl⟩

theorem Caches.author (hc : Caches chain s h copied reached)
    (hagrees : copied = none → AgreesFrom chain chunk safeHeight s) (hlt : h < min (s + chunk) safeHeight)
    (hsession : (chain h).newSession = true)
    (hquiet : ∀ i, s ≤ i → i < h → (chain i).newSession = false) :
    makeBlock copied (chain h) = makeBlock reached (chain h) := by
  rcases hc with ⟨rfl, rfl⟩ | ⟨hsh, rfl⟩
  · rfl
  · cases copied with
    | some set => rfl
    | none =>
        have hauthor := hagrees rfl h hsh hlt hsession hquiet
        rw [makeBlock, makeBlock, hsession]
        dsimp only [Option.getD]
        rw [hauthor]
        rfl

/-- How far a chunk is consumed: to its end, or to its first session block. -/
structure Consumed (chain : Nat → NodeBlock) (h n taken : Nat) (next : Option Authorities) : Prop where
  le : taken ≤ n
  pos : 0 < n → 0 < taken
  stops : (taken = n ∧ next ≠ none ∧ ∀ i, h ≤ i → i < h + taken → (chain i).newSession = false) ∨
    (next = none ∧ ∃ b, b + 1 = h + taken ∧ h ≤ b ∧ (chain b).newSession = true ∧
      ∀ i, h ≤ i → i < b → (chain i).newSession = false)

theorem consumeChunk_mismatch {made : Block} {next : Option Authorities} {st : Forward} {expected : H256}
    {chunk : List (Block × Option Authorities)}
    (h : st.lastForwardHash.filter (· ≠ made.parentHash) = some expected) :
    consumeChunk ((made, next) :: chunk) st =
      ⟨[], .failed (.parentHashMismatch made.height expected made.parentHash)⟩ := by
  rw [consumeChunk, h]

theorem consumeChunk_session {made : Block} {st : Forward} {chunk : List (Block × Option Authorities)}
    (h : st.lastForwardHash.filter (· ≠ made.parentHash) = none) :
    consumeChunk ((made, none) :: chunk) st =
      ⟨[made], .done ⟨made.height + 1, some made.hash, none⟩⟩ := by
  rw [consumeChunk, h]
  rfl

theorem consumeChunk_quiet {made : Block} {set : Authorities} {st : Forward}
    {chunk : List (Block × Option Authorities)}
    (h : st.lastForwardHash.filter (· ≠ made.parentHash) = none) :
    consumeChunk ((made, some set) :: chunk) st =
      ⟨made :: (consumeChunk chunk
          ⟨made.height + 1, some made.hash, st.authorities.or (some set)⟩).items,
        (consumeChunk chunk ⟨made.height + 1, some made.hash, st.authorities.or (some set)⟩).ending⟩ := by
  rw [consumeChunk, h]
  rfl

theorem makeAll_cons {fetch : Nat → Except NodeError NodeBlock} {h n : Nat}
    {authorities next : Option Authorities} {made : Block}
    (hmade : fetchAndMake fetch authorities h = .ok (made, next)) :
    makeAll fetch (List.range' h (n + 1)) authorities =
      ⟨made :: (makeAll fetch (List.range' (h + 1) n) next).items,
        (makeAll fetch (List.range' (h + 1) n) next).ending⟩ := by
  rw [List.range'_succ, makeAll, hmade]

theorem Consumed.cons {n taken : Nat} {next : Option Authorities}
    (hconsumed : Consumed chain (h + 1) n taken next) (hquiet : (chain h).newSession = false) :
    Consumed chain h (n + 1) (taken + 1) next := by
  have hnew : ∀ i, h ≤ i → (h + 1 ≤ i → (chain i).newSession = false) →
      (chain i).newSession = false := by
    intro i h₁ h₂
    by_cases he : i = h
    · rw [he]
      exact hquiet
    · exact h₂ (by omega)
  refine ⟨Nat.succ_le_succ hconsumed.le, fun _ => Nat.succ_pos _, ?_⟩
  rcases hconsumed.stops with ⟨hall, hsome, hno⟩ | ⟨hnone, b, hb, hhb, hbs, hno⟩
  · exact .inl ⟨by omega, hsome, fun i h₁ h₂ => hnew i h₁ fun h₃ => hno i h₃ (by omega)⟩
  · refine .inr ⟨hnone, b, by omega, by omega, hbs, fun i h₁ h₂ => ?_⟩
    exact hnew i h₁ fun h₃ => hno i h₃ h₂

def PassOf (node : Node) (chain : Nat → NodeBlock) (h n : Nat) (made : List (Block × Option Authorities))
    (st : Forward) : Prop :=
  ∃ taken, (consumeChunk made st).items <+:
      (makeAll node.blockAtHeight (List.range' h taken) st.authorities).items ∧
    taken ≤ n ∧ ∀ st', (consumeChunk made st).ending = .done st' →
      Consumed chain h n taken st'.authorities ∧ st'.height = h + taken ∧
        makeAll node.blockAtHeight (List.range' h taken) st.authorities =
          ⟨(consumeChunk made st).items, .done st'.authorities⟩

section Pass

variable {n : Nat} {st : Forward} {first : Block} {rest : List (Block × Option Authorities)}

theorem passOf_mismatch {next : Option Authorities} {expected : H256}
    (hmismatch : st.lastForwardHash.filter (· ≠ first.parentHash) = some expected) :
    PassOf node chain h n ((first, next) :: rest) st := by
  rw [PassOf, consumeChunk_mismatch hmismatch]
  refine ⟨0, List.nil_prefix, Nat.zero_le _, ?_⟩
  intro st' hdone
  cases hdone

theorem passOf_session (hmismatch : st.lastForwardHash.filter (· ≠ first.parentHash) = none)
    (hheight : first.height = h) (hsession : (chain h).newSession = true)
    (hreached : fetchAndMake node.blockAtHeight st.authorities h = .ok (first, none)) :
    PassOf node chain h (n + 1) ((first, none) :: rest) st := by
  have hpass : makeAll node.blockAtHeight (List.range' h 1) st.authorities =
      ⟨[first], .done none⟩ := makeAll_cons hreached
  rw [PassOf, consumeChunk_session hmismatch]
  refine ⟨1, ?_, by omega, ?_⟩
  · rw [hpass]
  · intro st' hdone
    cases hdone
    refine ⟨⟨by omega, fun _ => Nat.one_pos, ?_⟩, ?_, hpass⟩
    · exact .inr ⟨rfl, h, rfl, Nat.le_refl _, hsession, fun i h₁ h₂ => by omega⟩
    · rw [hheight]

theorem passOf_quiet {set : Authorities}
    (hmismatch : st.lastForwardHash.filter (· ≠ first.parentHash) = none)
    (hquiet : (chain h).newSession = false) (hor : st.authorities.or (some set) = some set)
    (hreached : fetchAndMake node.blockAtHeight st.authorities h = .ok (first, some set))
    (hrest : PassOf node chain (h + 1) n rest ⟨first.height + 1, some first.hash, some set⟩) :
    PassOf node chain h (n + 1) ((first, some set) :: rest) st := by
  obtain ⟨taken, hitems, hle, hdone⟩ := hrest
  rw [PassOf, consumeChunk_quiet hmismatch, hor]
  refine ⟨taken + 1, ?_, by omega, ?_⟩
  · rw [makeAll_cons hreached]
    exact List.cons_prefix_cons.mpr ⟨rfl, hitems⟩
  · intro st' hst
    obtain ⟨hconsumed, hnext, hpass⟩ := hdone st' hst
    refine ⟨hconsumed.cons hquiet, by omega, ?_⟩
    rw [makeAll_cons hreached, hpass, hst]

end Pass

/-- Where the session block agrees, a chunk yields what a single pass yields. -/
theorem consumeChunk_agrees (hs : Serves node chain safeHeight) {n : Nat} {st : Forward}
    {made : List (Block × Option Authorities)} (hend : h + n ≤ min (s + chunk) safeHeight)
    (hc : Caches chain s h copied st.authorities) (hat : st.height = h) (hmore : s < h ∨ 0 < n)
    (hquiet : ∀ i, s ≤ i → i < h → (chain i).newSession = false)
    (hagrees : copied = none → AgreesFrom chain chunk safeHeight s)
    (hmade : (List.range' h n).mapM (fetchAndMake node.blockAtHeight copied) = .ok made) :
    PassOf node chain h n made st := by
  induction n generalizing h st made with
  | zero =>
      obtain rfl := Except.ok.inj hmade
      refine ⟨0, List.prefix_refl _, Nat.le_refl _, fun st' hdone => ?_⟩
      obtain rfl : st = st' := by cases hdone; rfl
      have hsh : s < h := hmore.resolve_right (Nat.lt_irrefl 0)
      have hsome : st.authorities ≠ none := by
        rcases hc with ⟨rfl, -⟩ | ⟨-, hset⟩
        · exact absurd hsh (Nat.lt_irrefl _)
        · rw [hset]
          exact Option.some_ne_none _
      exact ⟨⟨Nat.le_refl _, id, .inl ⟨rfl, hsome, fun i h₁ h₂ => by omega⟩⟩, hat, rfl⟩
  | succ n ih =>
      have hlt : h < min (s + chunk) safeHeight := by omega
      have hsafe : h < safeHeight := by omega
      rw [List.range'_succ, List.mapM_cons] at hmade
      obtain ⟨⟨first, next⟩, hfirst, hmade⟩ := bind_ok.mp hmade
      obtain ⟨rest, hrest, hmade⟩ := bind_ok.mp hmade
      obtain rfl := Except.ok.inj hmade
      rw [fetchAndMake_served hs.toServesHeights hsafe] at hfirst
      obtain ⟨author, hauthor, hblock, hnext⟩ := makeBlock_ok.mp hfirst
      have hheight : first.height = h := by
        rw [hblock]
        exact hs.height h hsafe
      cases hmismatch : st.lastForwardHash.filter (· ≠ first.parentHash) with
      | some expected => exact passOf_mismatch hmismatch
      | none =>
          cases hsession : (chain h).newSession with
          | true =>
              rw [hsession, if_pos rfl] at hnext
              subst hnext
              have hreached := hc.author hagrees hlt hsession hquiet
              rw [hfirst, ← fetchAndMake_served hs.toServesHeights hsafe] at hreached
              exact passOf_session hmismatch hheight hsession hreached.symm
          | false =>
              have hquiet' : ∀ i, s ≤ i → i < h + 1 → (chain i).newSession = false := by
                intro i h₁ h₂
                by_cases he : i = h
                · rw [he]
                  exact hsession
                · exact hquiet i h₁ (by omega)
              have hbetween : ∀ i, s < i → i ≤ h → (chain i).newSession = false :=
                fun i h₁ h₂ => hquiet' i h₁.le (by omega)
              obtain ⟨hcaches, hor⟩ := hc.next hs hsafe hbetween
              have hreached : makeBlock st.authorities (chain h) = .ok (first, next) := by
                refine makeBlock_ok.mpr ⟨author, ?_, hblock, ?_⟩
                · rw [← hc.getD hs hsafe hbetween]
                  exact hauthor
                · rw [hsession, if_neg Bool.false_ne_true, ← hc.getD hs hsafe hbetween]
                  rwa [hsession, if_neg Bool.false_ne_true] at hnext
              rw [← fetchAndMake_served hs.toServesHeights hsafe] at hreached
              rw [hsession, if_neg Bool.false_ne_true] at hnext
              subst hnext
              have hsh : s ≤ h := by
                rcases hc with ⟨rfl, -⟩ | ⟨hsh, -⟩
                · exact Nat.le_refl _
                · exact hsh.le
              refine passOf_quiet hmismatch hsession hor hreached (ih (by omega) hcaches ?_
                (.inl (by omega)) hquiet' hrest)
              rw [hheight]

end Chunk

section Linked

def Linked (chain : Nat → NodeBlock) (safeHeight : Nat) : Prop :=
  ∀ h, h + 1 < safeHeight → (chain (h + 1)).block.parentHash = (chain h).block.hash

def ParentKnown (chain : Nat → NodeBlock) (safeHeight : Nat) (st : Forward) : Prop :=
  ∀ x, st.lastForwardHash = some x → st.height < safeHeight → (chain st.height).block.parentHash = x

variable {copied : Option Authorities}

theorem consumeChunk_linked (hs : ServesHeights node chain safeHeight) (hlinked : Linked chain safeHeight)
    {h n : Nat} {st : Forward} {made : List (Block × Option Authorities)} (hend : h + n ≤ safeHeight)
    (hat : st.height = h) (hknown : ParentKnown chain safeHeight st)
    (hmade : (List.range' h n).mapM (fetchAndMake node.blockAtHeight copied) = .ok made) :
    ∃ taken st', consumeChunk made st = ⟨(made.take taken).map Prod.fst, .done st'⟩ ∧
      st'.height = h + taken ∧ ParentKnown chain safeHeight st' ∧ taken ≤ n ∧ (0 < n → 0 < taken) ∧
      (taken = n ∨ ∃ b, b + 1 = h + taken ∧ h ≤ b ∧ (chain b).newSession = true) ∧
      (0 < taken → ∃ b, b + 1 = h + taken ∧ st'.lastForwardHash = some (chain b).block.hash) := by
  induction n generalizing h st made with
  | zero =>
      obtain rfl := Except.ok.inj hmade
      exact ⟨0, st, rfl, hat, hknown, Nat.le_refl _, id, .inl rfl, fun h => absurd h (Nat.lt_irrefl _)⟩
  | succ n ih =>
      have hsafe : h < safeHeight := by omega
      rw [List.range'_succ, List.mapM_cons] at hmade
      obtain ⟨⟨first, next⟩, hfirst, hmade⟩ := bind_ok.mp hmade
      obtain ⟨rest, hrest, hmade⟩ := bind_ok.mp hmade
      obtain rfl := Except.ok.inj hmade
      rw [fetchAndMake_served hs hsafe] at hfirst
      obtain ⟨author, -, hblock, hnext⟩ := makeBlock_ok.mp hfirst
      have hheight : first.height = h := by
        rw [hblock]
        exact hs.height h hsafe
      have hhash : first.hash = (chain h).block.hash := by
        rw [hblock]
      have hmatch : st.lastForwardHash.filter (· ≠ first.parentHash) = none := by
        rw [Option.filter_eq_none_iff]
        intro x hx
        have hparent := hknown x hx (by rw [hat]; exact hsafe)
        rw [hat] at hparent
        simp [hblock, hparent]
      have hstep : ∀ authorities, ParentKnown chain safeHeight
          ⟨first.height + 1, some first.hash, authorities⟩ := by
        intro authorities x hx hlt
        obtain rfl := Option.some.inj hx
        rw [hheight] at hlt ⊢
        rw [hhash]
        exact hlinked h hlt
      cases hsession : (chain h).newSession with
      | true =>
          rw [hsession, if_pos rfl] at hnext
          subst hnext
          rw [consumeChunk_session hmatch]
          refine ⟨1, _, rfl, by rw [hheight], hstep none, by omega, fun _ => Nat.one_pos,
            .inr ⟨h, rfl, Nat.le_refl _, hsession⟩, fun _ => ⟨h, rfl, by rw [hhash]⟩⟩
      | false =>
          rw [hsession, if_neg Bool.false_ne_true] at hnext
          subst hnext
          rw [consumeChunk_quiet hmatch]
          obtain ⟨taken, st', hconsume, hnextHeight, hnextKnown, hle, hsome, hstops, hlast⟩ :=
            ih (by omega) (congrArg (· + 1) hheight)
              (hstep (st.authorities.or (some (copied.getD (chain h).authorities)))) hrest
          rw [hconsume]
          refine ⟨taken + 1, st', rfl, by omega, hnextKnown, by omega, fun _ => Nat.succ_pos _, ?_, ?_⟩
          · rcases hstops with hall | ⟨b, hb, hhb, hbs⟩
            · exact .inl (by omega)
            · exact .inr ⟨b, by omega, by omega, hbs⟩
          · intro _
            rcases Nat.eq_zero_or_pos n with rfl | hpos
            · obtain rfl := Except.ok.inj hrest
              obtain ⟨-, hdone⟩ := Yields.mk.inj hconsume
              obtain rfl := Ending.done.inj hdone
              exact ⟨h, by omega, by rw [hhash]⟩
            · obtain ⟨b, hb, hbhash⟩ := hlast (hsome hpos)
              exact ⟨b, by omega, hbhash⟩

def Decodes (chain : Nat → NodeBlock) (safeHeight : Nat) : Prop :=
  ∀ h, h < safeHeight → ∀ set, ∃ author, (chain h).author set = .ok author

theorem Decodes.makes (hd : Decodes chain safeHeight) (hs : ServesHeights node chain safeHeight) {h n : Nat}
    (hend : h + n ≤ safeHeight) :
    ∃ made, (List.range' h n).mapM (fetchAndMake node.blockAtHeight copied) = .ok made := by
  induction n generalizing h with
  | zero => exact ⟨[], rfl⟩
  | succ n ih =>
      obtain ⟨author, hauthor⟩ := hd h (by omega) (copied.getD (chain h).authorities)
      obtain ⟨first, hfirst⟩ : ∃ first, makeBlock copied (chain h) = .ok first :=
        ⟨_, makeBlock_ok.mpr ⟨author, hauthor, rfl, rfl⟩⟩
      rw [← fetchAndMake_served hs (show h < safeHeight by omega)] at hfirst
      obtain ⟨rest, hrest⟩ := ih (h := h + 1) (by omega)
      refine ⟨first :: rest, ?_⟩
      rw [List.range'_succ, List.mapM_cons]
      exact bind_ok.mpr ⟨first, hfirst, bind_ok.mpr ⟨rest, hrest, rfl⟩⟩

theorem chunk_get (hs : ServesHeights node chain safeHeight) {h n i : Nat} (hend : h + n ≤ safeHeight)
    (hi : i < n) {made : List (Block × Option Authorities)}
    (hmade : (List.range' h n).mapM (fetchAndMake node.blockAtHeight copied) = .ok made) :
    ∃ author, (chain (h + i)).author (copied.getD (chain (h + i)).authorities) = .ok author ∧
      (made.map Prod.fst)[i]? = some { (chain (h + i)).block with author } := by
  induction n generalizing h i made with
  | zero => exact absurd hi (Nat.not_lt_zero _)
  | succ n ih =>
      rw [List.range'_succ, List.mapM_cons] at hmade
      obtain ⟨⟨first, next⟩, hfirst, hmade⟩ := bind_ok.mp hmade
      obtain ⟨rest, hrest, hmade⟩ := bind_ok.mp hmade
      obtain rfl := Except.ok.inj hmade
      cases i with
      | zero =>
          rw [fetchAndMake_served hs (by omega)] at hfirst
          obtain ⟨author, hauthor, rfl, -⟩ := makeBlock_ok.mp hfirst
          exact ⟨author, hauthor, rfl⟩
      | succ i =>
          obtain ⟨author, hauthor, hget⟩ := ih (h := h + 1) (i := i) (by omega) (by omega) hrest
          rw [Nat.add_right_comm] at hauthor hget
          exact ⟨author, hauthor, hget⟩

theorem makeAll_get (hs : ServesHeights node chain safeHeight) (hd : Decodes chain safeHeight) {h n i : Nat}
    (hend : h + n ≤ safeHeight) (hi : i < n) {c : Option Authorities}
    (hquiet : ∀ j, j < i → (chain (h + j)).newSession = false) :
    ∃ author, (chain (h + i)).author (c.getD (chain h).authorities) = .ok author ∧
      (makeAll node.blockAtHeight (List.range' h n) c).items[i]? =
        some { (chain (h + i)).block with author } := by
  induction n generalizing h i c with
  | zero => exact absurd hi (Nat.not_lt_zero _)
  | succ n ih =>
      obtain ⟨author, hauthor⟩ := hd h (by omega) (c.getD (chain h).authorities)
      have hfirst := makeBlock_ok.mpr ⟨author, hauthor, rfl, rfl⟩
      rw [← fetchAndMake_served hs (show h < safeHeight by omega)] at hfirst
      rw [makeAll_cons hfirst]
      cases i with
      | zero => exact ⟨author, hauthor, rfl⟩
      | succ i =>
          have hsession := hquiet 0 (Nat.succ_pos _)
          rw [Nat.add_zero] at hsession
          rw [hsession, if_neg Bool.false_ne_true]
          obtain ⟨author', hauthor', hget⟩ := ih (h := h + 1) (i := i)
            (c := some (c.getD (chain h).authorities)) (by omega) (by omega) (by
              intro j hj
              rw [Nat.add_right_comm]
              exact hquiet (j + 1) (by omega))
          rw [Nat.add_right_comm] at hauthor' hget
          exact ⟨author', hauthor', hget⟩

theorem makeAll_length (hs : ServesHeights node chain safeHeight) (hd : Decodes chain safeHeight) {h n : Nat}
    (hend : h + n ≤ safeHeight) (reached : Option Authorities) :
    (makeAll node.blockAtHeight (List.range' h n) reached).items.length = n := by
  induction n generalizing h reached with
  | zero => rfl
  | succ n ih =>
      obtain ⟨author, hauthor⟩ := hd h (by omega) (reached.getD (chain h).authorities)
      have hfirst := makeBlock_ok.mpr ⟨author, hauthor, rfl, rfl⟩
      rw [← fetchAndMake_served hs (show h < safeHeight by omega)] at hfirst
      rw [makeAll_cons hfirst, List.length_cons, ih (by omega)]

section Rounds

theorem forward_done {fuel : Nat} {st : Forward} (hdone : ¬ st.height < safeHeight) :
    forward node chunk safeHeight fuel st = ⟨[], .done st⟩ := by
  cases fuel with
  | zero => rw [forward, if_neg hdone]
  | succ fuel => rw [forward, if_neg hdone]

theorem forward_round {fuel : Nat} {st : Forward} (hlt : st.height < safeHeight) :
    forward node chunk safeHeight (fuel + 1) st =
      (ofExcept (fetchChunk node st.authorities st.height (min (st.height + chunk) safeHeight))).andThen
        fun made => (consumeChunk made st).andThen (forward node chunk safeHeight fuel) := by
  rw [forward, if_pos hlt]

theorem makeAll_split {h taken n : Nat} (hle : taken ≤ n) (authorities : Option Authorities) :
    makeAll node.blockAtHeight (List.range' h n) authorities =
      (makeAll node.blockAtHeight (List.range' h taken) authorities).andThen
        (makeAll node.blockAtHeight (List.range' (h + taken) (n - taken))) := by
  rw [← makeAll_append, List.range'_append_1, Nat.add_sub_cancel' hle]

theorem Agrees.next {h n taken : Nat} {authorities next : Option Authorities}
    (ha : Agrees chain chunk safeHeight h authorities) (hc : Consumed chain h n taken next) :
    Agrees chain chunk safeHeight (h + taken) next := by
  rintro s (⟨rfl, hnone⟩ | ⟨b, hle, hsession, rfl⟩)
  · rcases hc.stops with ⟨-, hsome, -⟩ | ⟨-, b, hb, hhb, hbs, -⟩
    · exact absurd hnone hsome
    · exact ha _ (.inr ⟨b, hhb, hbs, hb.symm⟩)
  · exact ha _ (.inr ⟨b, by omega, hsession, rfl⟩)

/-- Where the session blocks agree, the catch-up yields what a single pass yields. -/
theorem forward_agrees (hs : Serves node chain safeHeight) (hchunk : 0 < chunk) {fuel : Nat}
    {st : Forward} (hfuel : safeHeight ≤ st.height + fuel)
    (ha : Agrees chain chunk safeHeight st.height st.authorities) :
    (forward node chunk safeHeight fuel st).items <+:
      (makeAll node.blockAtHeight (List.range' st.height (safeHeight - st.height))
        st.authorities).items := by
  induction fuel generalizing st with
  | zero =>
      rw [forward_done (by omega)]
      exact List.nil_prefix
  | succ fuel ih =>
      by_cases hlt : st.height < safeHeight
      · rw [forward_round hlt, fetchChunk]
        obtain ⟨n, hn⟩ : ∃ n, n = min (st.height + chunk) safeHeight - st.height := ⟨_, rfl⟩
        rw [← hn]
        cases hmade : (List.range' st.height n).mapM
            (fetchAndMake node.blockAtHeight st.authorities) with
        | error e => exact List.nil_prefix
        | ok made =>
            obtain ⟨taken, hitems, hle, hdone⟩ := consumeChunk_agrees hs (by omega)
              (.inl ⟨rfl, rfl⟩) rfl (.inr (by omega)) (fun i h₁ h₂ => by omega)
              (fun hnone => ha _ (.inl ⟨rfl, hnone⟩)) hmade
            rw [ofExcept_ok, makeAll_split (show taken ≤ safeHeight - st.height by omega)]
            rw [Yields.andThen]
            cases hending : (consumeChunk made st).ending with
            | done st' =>
                obtain ⟨hconsumed, hnext, hpass⟩ := hdone st' hending
                have hpos := hconsumed.pos (by omega)
                rw [hpass]
                have hagrees : Agrees chain chunk safeHeight st'.height st'.authorities := by
                  rw [hnext]
                  exact ha.next hconsumed
                have hrest := ih (show safeHeight ≤ st'.height + fuel by omega) hagrees
                rw [hnext] at hrest
                rw [show safeHeight - st.height - taken = safeHeight - (st.height + taken) by omega]
                exact (List.prefix_append_right_inj _).mpr hrest
            | failed e => exact hitems.trans (items_andThen _ _)
            | unfinished => exact hitems.trans (items_andThen _ _)
      · rw [forward_done hlt]
        exact List.nil_prefix

def MadeFrom (chain : Nat → NodeBlock) (h : Nat) (items : List Block) : Prop :=
  ∀ i made, items[i]? = some made → ∃ author, made = { (chain (h + i)).block with author }

theorem MadeFrom.append {h : Nat} {items items' : List Block} (hi : MadeFrom chain h items)
    (hi' : MadeFrom chain (h + items.length) items') : MadeFrom chain h (items ++ items') := by
  intro i made hget
  by_cases hlt : i < items.length
  · rw [List.getElem?_append_left hlt] at hget
    exact hi i made hget
  · rw [List.getElem?_append_right (Nat.le_of_not_lt hlt)] at hget
    obtain ⟨author, hmade⟩ := hi' _ made hget
    rw [Nat.add_assoc, Nat.add_sub_cancel' (Nat.le_of_not_lt hlt)] at hmade
    exact ⟨author, hmade⟩

def Undecodable (chain : Nat → NodeBlock) (top : Nat) (e : NodeError) : Prop :=
  ∃ h set, h < top ∧ (chain h).author set = .error e

theorem chunk_error (hs : ServesHeights node chain safeHeight) {h n : Nat} {e : NodeError}
    (hend : h + n ≤ safeHeight)
    (herror : (List.range' h n).mapM (fetchAndMake node.blockAtHeight copied) = .error e) :
    Undecodable chain safeHeight e := by
  induction n generalizing h with
  | zero => cases herror
  | succ n ih =>
      rw [List.range'_succ, List.mapM_cons] at herror
      rcases bind_error.mp herror with hfirst | ⟨first, -, hrest⟩
      · rw [fetchAndMake_served hs (by omega)] at hfirst
        rcases bind_error.mp hfirst with hauthor | ⟨author, -, hnone⟩
        · exact ⟨h, _, by omega, hauthor⟩
        · cases hnone
      · rcases bind_error.mp hrest with hmore | ⟨rest, -, hnone⟩
        · exact ih (by omega) hmore
        · cases hnone

theorem chunk_madeFrom (hs : ServesHeights node chain safeHeight) {h n : Nat} (hend : h + n ≤ safeHeight)
    {made : List (Block × Option Authorities)} (taken : Nat)
    (hmade : (List.range' h n).mapM (fetchAndMake node.blockAtHeight copied) = .ok made) :
    MadeFrom chain h ((made.take taken).map Prod.fst) := by
  intro i m hget
  rw [List.map_take, List.getElem?_take] at hget
  have hlen : made.length = n := by
    rw [mapM_length hmade, List.length_range']
  split at hget
  · have hi : i < n := by
      have := (List.getElem?_eq_some_iff.mp hget).1
      rwa [List.length_map, hlen] at this
    obtain ⟨author, -, hget'⟩ := chunk_get hs hend hi hmade
    exact ⟨author, Option.some.inj (hget.symm.trans hget')⟩
  · cases hget

theorem forward_linked (hs : ServesHeights node chain safeHeight) (hlinked : Linked chain safeHeight)
    (hchunk : 0 < chunk) {fuel : Nat} {st : Forward} (hfuel : safeHeight ≤ st.height + fuel)
    (hle : st.height ≤ safeHeight) (hknown : ParentKnown chain safeHeight st) :
    MadeFrom chain st.height (forward node chunk safeHeight fuel st).items ∧
      ((∃ st', (forward node chunk safeHeight fuel st).ending = .done st' ∧
          (forward node chunk safeHeight fuel st).items.length = safeHeight - st.height ∧
          (st.height = safeHeight ∧ st'.lastForwardHash = st.lastForwardHash ∨
            ∃ b, b + 1 = safeHeight ∧ st.height ≤ b ∧
              st'.lastForwardHash = some (chain b).block.hash)) ∨
        ∃ e, (forward node chunk safeHeight fuel st).ending = .failed e ∧
          (forward node chunk safeHeight fuel st).items.length < safeHeight - st.height ∧
          Undecodable chain safeHeight e) := by
  induction fuel generalizing st with
  | zero =>
      rw [forward_done (by omega)]
      exact ⟨fun i made hget => (nomatch hget), .inl ⟨st, rfl, by simp only [List.length_nil]; omega,
        .inl ⟨by omega, rfl⟩⟩⟩
  | succ fuel ih =>
      by_cases hlt : st.height < safeHeight
      · rw [forward_round hlt, fetchChunk]
        obtain ⟨n, hn⟩ : ∃ n, n = min (st.height + chunk) safeHeight - st.height := ⟨_, rfl⟩
        rw [← hn]
        cases hmade : (List.range' st.height n).mapM
            (fetchAndMake node.blockAtHeight st.authorities) with
        | error e =>
            refine ⟨fun i made hget => (nomatch hget), .inr ⟨e, rfl, ?_, chunk_error hs (by omega) hmade⟩⟩
            show 0 < _
            omega
        | ok made =>
            obtain ⟨taken, st', hconsume, hnext, hknown', htaken, hpos, -, hlast⟩ :=
              consumeChunk_linked hs hlinked (by omega) rfl hknown hmade
            have hpos' := hpos (by omega)
            obtain ⟨b, hb, hbhash⟩ := hlast hpos'
            have hlen : ((made.take taken).map Prod.fst).length = taken := by
              rw [List.length_map, List.length_take, mapM_length hmade, List.length_range']
              omega
            have hrest : safeHeight - st.height = taken + (safeHeight - st'.height) := by omega
            have hend : st.height + n ≤ safeHeight := by omega
            obtain ⟨hmadeFrom, hending⟩ :=
              ih (show safeHeight ≤ st'.height + fuel by omega) (by omega) hknown'
            rw [ofExcept_ok, hconsume]
            refine ⟨(chunk_madeFrom hs hend taken hmade).append ?_, ?_⟩
            · rw [hlen, ← hnext]
              exact hmadeFrom
            · have hitems : ∀ xs : List Block,
                  (((made.take taken).map Prod.fst) ++ xs).length = taken + xs.length := by
                intro xs
                rw [List.length_append, hlen]
              rcases hending with ⟨st'', hdone, hlen', hhash⟩ | ⟨e, hfailed, hlen', hbad⟩
              · refine .inl ⟨st'', hdone, (hitems _).trans (by rw [hlen', hrest]), .inr ?_⟩
                rcases hhash with ⟨hsafe, hsame⟩ | ⟨b', hb', hle', hhash⟩
                · exact ⟨b, by omega, by omega, hsame.trans hbhash⟩
                · exact ⟨b', hb', by omega, hhash⟩
              · refine .inr ⟨e, hfailed, (hitems _).trans_lt ?_, hbad⟩
                rw [hrest]
                exact Nat.add_lt_add_left hlen' taken
      · rw [forward_done hlt]
        exact ⟨fun i made hget => (nomatch hget), .inl ⟨st, rfl, by simp only [List.length_nil]; omega,
          .inl ⟨by omega, rfl⟩⟩⟩

theorem chunk_differs (hs : ServesHeights node chain safeHeight) (hd : Decodes chain safeHeight)
    (hlinked : Linked chain safeHeight) {h n : Nat} {st : Forward}
    {made : List (Block × Option Authorities)} {rest : List Block}
    (hend : h + n = min (h + chunk) safeHeight) (hat : st.height = h)
    (hknown : ParentKnown chain safeHeight st)
    (hmade : (List.range' h n).mapM (fetchAndMake node.blockAtHeight none) = .ok made)
    (hsame : (consumeChunk made st).items ++ rest =
      (makeAll node.blockAtHeight (List.range' h (safeHeight - h)) none).items) :
    AgreesFrom chain chunk safeHeight h := by
  intro b hb hlt hsession hquiet
  obtain ⟨i, rfl⟩ : ∃ i, b = h + i := ⟨b - h, by omega⟩
  obtain ⟨taken, st', hconsume, -, -, hle, -, hstops, -⟩ :=
    consumeChunk_linked hs hlinked (by omega) hat hknown hmade
  have hi : i < taken := by
    rcases hstops with hall | ⟨b, hb, hhb, hbs⟩
    · omega
    · by_contra hnot
      rw [hquiet b hhb (by omega)] at hbs
      cases hbs
  clear hstops
  obtain ⟨author, hauthor, hget⟩ := chunk_get hs (by omega) (show i < n by omega) hmade
  obtain ⟨author', hauthor', hget'⟩ := makeAll_get hs hd (h := h) (n := safeHeight - h) (i := i)
    (c := none) (by omega) (by omega) (fun j hj => hquiet _ (by omega) (by omega))
  rw [← hsame, hconsume, List.map_take] at hget'
  have hlen : (made.map Prod.fst).length = n := by
    rw [List.length_map, mapM_length hmade, List.length_range']
  rw [List.getElem?_append_left (by rw [List.length_take, hlen]; omega),
    List.getElem?_take_of_lt hi, hget] at hget'
  have hsameAuthor : author = author' := congrArg Block.author (Option.some.inj hget')
  exact hauthor.trans (hsameAuthor ▸ hauthor'.symm)

theorem agrees_of_same (hs : Serves node chain safeHeight) (hd : Decodes chain safeHeight)
    (hlinked : Linked chain safeHeight) (hchunk : 0 < chunk) {fuel : Nat} {st : Forward}
    (hfuel : safeHeight ≤ st.height + fuel) (hknown : ParentKnown chain safeHeight st)
    (hsame : (forward node chunk safeHeight fuel st).items =
      (makeAll node.blockAtHeight (List.range' st.height (safeHeight - st.height))
        st.authorities).items) : Agrees chain chunk safeHeight st.height st.authorities := by
  have hbehind : ∀ h authorities, safeHeight ≤ h → Agrees chain chunk safeHeight h authorities := by
    rintro h authorities hle s hcold b hb hlt
    rcases hcold with ⟨rfl, -⟩ | ⟨b', hb', -, rfl⟩ <;> omega
  induction fuel generalizing st with
  | zero => exact hbehind _ _ hfuel
  | succ fuel ih =>
      by_cases hlt : st.height < safeHeight
      · rw [forward_round hlt, fetchChunk] at hsame
        obtain ⟨n, hn⟩ : ∃ n, n = min (st.height + chunk) safeHeight - st.height := ⟨_, rfl⟩
        rw [← hn] at hsame
        obtain ⟨made, hmade⟩ : ∃ made, (List.range' st.height n).mapM
            (fetchAndMake node.blockAtHeight st.authorities) = .ok made :=
          hd.makes hs.toServesHeights (by omega)
        rw [hmade, ofExcept_ok] at hsame
        have hfrom : st.authorities = none → AgreesFrom chain chunk safeHeight st.height := by
          intro hnone
          obtain ⟨rest, hrest⟩ := items_andThen (consumeChunk made st)
            (forward node chunk safeHeight fuel)
          rw [← hrest, hnone] at hsame
          exact chunk_differs hs.toServesHeights hd hlinked (by omega) rfl hknown (hnone ▸ hmade) hsame
        obtain ⟨taken, -, hle, hdone⟩ := consumeChunk_agrees hs (by omega) (.inl ⟨rfl, rfl⟩) rfl
          (.inr (by omega)) (fun i h₁ h₂ => by omega) hfrom hmade
        obtain ⟨_, st', hconsume, -, hknown', -⟩ :=
          consumeChunk_linked hs.toServesHeights hlinked (by omega) rfl hknown hmade
        have hending : (consumeChunk made st).ending = .done st' := by
          rw [hconsume]
        obtain ⟨hconsumed, hnext, hpass⟩ := hdone st' hending
        have hpos := hconsumed.pos (by omega)
        rw [makeAll_split (show taken ≤ safeHeight - st.height by omega), hpass] at hsame
        rw [Yields.andThen] at hsame
        rw [hending] at hsame
        have hleft : safeHeight - st.height - taken = safeHeight - (st.height + taken) := by omega
        rw [hleft, ← hnext] at hsame
        have hlater := ih (by omega) hknown' (List.append_cancel_left hsame)
        rintro s (⟨rfl, hnone⟩ | ⟨b, hb, hsession, rfl⟩)
        · exact hfrom hnone
        · by_cases hbehindTaken : st'.height ≤ b
          · exact hlater _ (.inr ⟨b, hbehindTaken, hsession, rfl⟩)
          · rcases hconsumed.stops with ⟨-, -, hno⟩ | ⟨hnone, b', hb', -, -, hno⟩
            · rw [hno b hb (by omega)] at hsession
              cases hsession
            · by_cases heq : b = b'
              · exact hlater _ (.inl ⟨by omega, hnone⟩)
              · rw [hno b hb (by omega)] at hsession
                cases hsession
      · exact hbehind _ _ (Nat.le_of_not_lt hlt)

end Rounds

end Linked

section Results

def startOf (chain : Nat → NodeBlock) (start : Nat) (authorities : Option Authorities) : Forward :=
  ⟨start, if start = 0 then none else some (chain (start - 1)).block.hash, authorities⟩

/-- The authors of the catch-up are those of a single pass exactly where the
session blocks agree. -/
theorem authors_agree_iff (node : Node) (chain : Nat → NodeBlock) (chunk start safeHeight : Nat)
    (authorities : Option Authorities) (hchunk : 0 < chunk) (hs : Serves node chain safeHeight)
    (hlinked : Linked chain safeHeight) :
    (Agrees chain chunk safeHeight start authorities →
      (forward node chunk safeHeight (safeHeight - start) (startOf chain start authorities)).items <+:
        (makeAll node.blockAtHeight (List.range' start (safeHeight - start)) authorities).items) ∧
    (Decodes chain safeHeight →
      ((forward node chunk safeHeight (safeHeight - start) (startOf chain start authorities)).items =
          (makeAll node.blockAtHeight (List.range' start (safeHeight - start)) authorities).items ↔
        Agrees chain chunk safeHeight start authorities)) := by
  have hfuel : safeHeight ≤ (startOf chain start authorities).height + (safeHeight - start) := by
    show safeHeight ≤ start + (safeHeight - start)
    omega
  have hknown : ParentKnown chain safeHeight (startOf chain start authorities) := by
    intro x hx hlt
    by_cases hzero : start = 0
    · rw [startOf, if_pos hzero] at hx
      cases hx
    · rw [startOf, if_neg hzero] at hx
      obtain rfl := Option.some.inj hx
      obtain ⟨h, rfl⟩ : ∃ h, start = h + 1 := ⟨start - 1, by omega⟩
      exact hlinked h hlt
  have hagrees := forward_agrees hs hchunk hfuel
  refine ⟨hagrees, fun hd => ⟨agrees_of_same hs hd hlinked hchunk hfuel hknown, fun ha => ?_⟩⟩
  by_cases hle : start ≤ safeHeight
  · refine (hagrees ha).eq_of_length ?_
    rw [makeAll_length hs.toServesHeights hd (by show start + _ ≤ _; omega)]
    obtain ⟨-, ⟨st', -, hlen, -⟩ | ⟨e, -, -, h, set, hlt, hbad⟩⟩ :=
      forward_linked hs.toServesHeights hlinked hchunk hfuel hle hknown
    · exact hlen
    · obtain ⟨author, hauthor⟩ := hd h hlt set
      rw [hauthor] at hbad
      cases hbad
  · rw [show safeHeight - start = 0 by omega, forward_done (by show ¬ start < _; omega)]
    rfl

end Results

section Samples

def chainBlock (height : Nat) (h : height < 2 ^ 64) : Block where
  hash := .filled 32 (UInt8.ofNat (height + 1))
  height
  protocolVersion := .v1_0 1000000
  parentHash := .filled 32 (UInt8.ofNat height)
  author := none
  timestamp := 0
  zswapMerkleTreeRoot := ⟨.v8, []⟩
  ledgerStateRoot := none
  transactions := []
  dustRegistrationEvents := []
  height_lt := h
  timestamp_lt := zero_lt_u64

def authority (n : UInt8) : ByteArr 32 := .filled 32 n

def slotZero : DigestItem := .preRuntime auraEngineId (List.replicate 8 0)

/-- Genesis, and a block that starts a session with other authorities. -/
def sessionChain (h : Nat) : NodeBlock :=
  if h = 0 then ⟨chainBlock 0 zero_lt_u64, [slotZero], false, false, [authority 1, authority 2]⟩
  else ⟨chainBlock 1 one_lt_u64, [slotZero], false, true, [authority 3, authority 4]⟩

def sessionNode : Node where
  blockAt hash :=
    if hash = (sessionChain 0).block.hash then .ok (sessionChain 0)
    else if hash = (sessionChain 1).block.hash then .ok (sessionChain 1)
    else .error (.getOnlineClientAt hash)
  blockAtHeight h := if h < 2 then .ok (sessionChain h) else .error (.getOnlineClientAtHeight h)
  genesisHash := (sessionChain 0).block.hash

theorem serves_session : Serves sessionNode sessionChain 2 := by
  refine ⟨⟨fun h hlt => if_pos hlt, fun h hlt => ?_⟩, fun h hlt hquiet => ?_⟩
  · interval_cases h <;> rfl
  · obtain rfl : h = 0 := by omega
    cases hquiet

theorem linked_session : Linked sessionChain 2 := by
  intro h hlt
  obtain rfl : h = 0 := by omega
  decide

theorem decodes_session : Decodes sessionChain 2 := by
  intro h hlt set
  have hlogs : (sessionChain h).logs = [slotZero] ∧ (sessionChain h).babeSupported = false := by
    rw [sessionChain]
    split <;> exact ⟨rfl, rfl⟩
  rw [NodeBlock.author, hlogs.1, authorFromDigestLogs]
  split
  · exact ⟨_, rfl⟩
  · have hslot : digestAuthor auraEngineId (List.replicate 8 0) set
        (sessionChain h).babeSupported = .ok set[0 % set.length]? := rfl
    rw [slotZero, firstAuthor, hslot]
    cases set[0 % set.length]? with
    | some author => exact ⟨some author, bind_ok.mpr ⟨some author, rfl, rfl⟩⟩
    | none => exact ⟨none, bind_ok.mpr ⟨none, rfl, rfl⟩⟩

/-- Without a cache, the chunk makes the session block with the authorities of the
session that it starts; one pass makes it with those of the session it ends. -/
theorem author_of_session_block : Serves sessionNode sessionChain 2 ∧ Linked sessionChain 2 ∧
    (forward sessionNode catchUpChunk 2 2 (startOf sessionChain 0 none)).items.map Block.author =
      [some (authority 1), some (authority 3)] ∧
    (makeAll sessionNode.blockAtHeight (List.range' 0 2) none).items.map Block.author =
      [some (authority 1), some (authority 1)] :=
  ⟨serves_session, linked_session, by decide +kernel, by decide +kernel⟩

theorem authors_agree_cached :
    (forward sessionNode catchUpChunk 2 2
        (startOf sessionChain 0 (some [authority 1, authority 2]))).items =
      (makeAll sessionNode.blockAtHeight (List.range' 0 2)
        (some [authority 1, authority 2])).items := by
  refine ((authors_agree_iff sessionNode sessionChain catchUpChunk 0 2 _ (by decide) serves_session
    linked_session).2 decodes_session).mpr ?_
  rintro s (⟨-, hnone⟩ | ⟨b, -, hsession, rfl⟩)
  · cases hnone
  · have hpos : b ≠ 0 := by
      rintro rfl
      cases hsession
    intro b' hb' hlt
    omega

end Samples

end Nightfrost.BlockAuthors
