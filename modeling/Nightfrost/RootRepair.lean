import Nightfrost.LedgerDb
import Nightfrost.Worklist

namespace Nightfrost.RootRepair

open ByteOrder Domain ExceptFold LedgerDb Worklist

scoped instance lawfulHash : LawfulBEq ArenaHash := inferInstance

theorem compare_hash (a b : ArenaHash) : compare a b = compare a.val b.val := rfl

scoped instance : Std.TransOrd ArenaHash where
  eq_swap {a b} := by
    rw [compare_hash, compare_hash]
    exact Std.OrientedOrd.eq_swap
  isLE_trans {a b c} hab hbc := by
    rw [compare_hash] at *
    exact Std.TransOrd.isLE_trans hab hbc

scoped instance : Std.LawfulEqOrd ArenaHash where
  compare_self {a} := by
    rw [compare_hash]
    exact Std.ReflOrd.compare_self
  eq_of_compare {a b} h := by
    rw [compare_hash] at h
    exact Subtype.ext (Std.LawfulEqOrd.eq_of_compare h)

scoped instance : Finite ArenaHash := by
  have hlists : {bytes : Bytes | bytes.length = 32}.Finite := List.finite_length_eq UInt8 32
  exact hlists.to_subtype

abbrev RootCounts := Std.ExtTreeMap ArenaHash Nat

structure RootCountRepair where
  raisedRoots : Nat
  raisedTotal : Nat
  culledRoots : Nat
  strays : Nat
  deriving DecidableEq

structure StorageBackend where
  State : Type
  Object : Type
  /-- The hashes that the children of a node refer to. -/
  refs : Object → List ArenaHash
  getRoots : State → List (ArenaHash × Nat)
  get : State → ArenaHash → Option Object × State
  persist : State → ArenaHash → State
  unpersist : State → ArenaHash → State
  flushAllChangesToDb : State → State

/-- The count each root of the window must have: one per block referencing it. -/
def windowRootCounts (arenaRootHash : Bytes → LedgerVersion → Except String ArenaHash)
    (window : List (Bytes × LedgerVersion)) : Except String RootCounts :=
  window.foldlM (fun wanted entry => do
    let hash ← arenaRootHash entry.1 entry.2
    .ok (wanted.insert hash ((wanted.getD hash 0 + 1) % 2 ^ 32))) ∅

variable (backend : StorageBackend)

/-- The loop of `dagIsComplete`, with the top of the stack first; `none` where
the fuel is too little. -/
def dagLoop : Nat → backend.State → List ArenaHash → List ArenaHash → Option (Bool × backend.State)
  | _, s, _, [] => some (true, s)
  | 0, _, _, _ :: _ => none
  | fuel + 1, s, visited, hash :: frontier =>
      if hash ∈ visited then dagLoop fuel s visited frontier
      else
        match backend.get s hash with
        | (some node, s) => dagLoop fuel s (hash :: visited) ((backend.refs node).reverse ++ frontier)
        | (none, s) => some (false, s)

def dagIsComplete (fuel : Nat) (s : backend.State) (hash : ArenaHash) :
    Option (Bool × backend.State) :=
  dagLoop backend fuel s [] [hash]

def raiseRoot (fuel : Nat) (stored : List (ArenaHash × Nat)) (st : backend.State × RootCountRepair)
    (entry : ArenaHash × Nat) : Option (backend.State × RootCountRepair) :=
  let had := (stored.lookup entry.1).getD 0
  let missing := entry.2 - had
  if missing = 0 then some st
  else do
    let (complete, s) ← if had = 0 then dagIsComplete backend fuel st.1 entry.1 else some (true, st.1)
    if ¬ complete then some (s, { st.2 with culledRoots := st.2.culledRoots + 1 })
    else
      some ((fun s => backend.persist s entry.1)^[missing] s,
        { st.2 with
          raisedRoots := st.2.raisedRoots + 1
          raisedTotal := (st.2.raisedTotal + missing) % 2 ^ 32 })

def raiseRootCounts (fuel : Nat) (s : backend.State) (wanted : RootCounts) :
    Option (RootCountRepair × backend.State) := do
  let stored := backend.getRoots s
  let strays := (stored.filter (fun root => !wanted.contains root.1)).length
  let (s, repair) ← wanted.toList.foldlM (raiseRoot backend fuel stored) (s, ⟨0, 0, 0, strays⟩)
  some (repair, backend.flushAllChangesToDb s)

/-- The arena as a backend keeps it: the nodes, the root counts with the changes
that wait for a flush, and the counts in the database. -/
structure Arena where
  node : backend.State → ArenaHash → Option backend.Object
  rootCount : backend.State → ArenaHash → Int
  stored : backend.State → ArenaHash → Int

variable {backend}

structure Arena.Same (arena : Arena backend) (s s' : backend.State) : Prop where
  node : arena.node s' = arena.node s
  rootCount : arena.rootCount s' = arena.rootCount s
  stored : arena.stored s' = arena.stored s

/-- The operations of the storage crate, by what they do to the arena. -/
structure Arena.Lawful (arena : Arena backend) : Prop where
  get_node : ∀ s hash, (backend.get s hash).1 = arena.node s hash
  get_same : ∀ s hash, arena.Same s (backend.get s hash).2
  persist : ∀ s hash, arena.node (backend.persist s hash) = arena.node s ∧
    arena.rootCount (backend.persist s hash) =
      Function.update (arena.rootCount s) hash (arena.rootCount s hash + 1) ∧
    arena.stored (backend.persist s hash) = arena.stored s
  unpersist : ∀ s hash, arena.node (backend.unpersist s hash) = arena.node s ∧
    arena.rootCount (backend.unpersist s hash) =
      Function.update (arena.rootCount s) hash (arena.rootCount s hash - 1) ∧
    arena.stored (backend.unpersist s hash) = arena.stored s
  flush : ∀ s, (∀ hash, 0 ≤ arena.rootCount s hash) →
    arena.node (backend.flushAllChangesToDb s) = arena.node s ∧
      arena.rootCount (backend.flushAllChangesToDb s) = arena.rootCount s ∧
      arena.stored (backend.flushAllChangesToDb s) = arena.rootCount s
  stored_nonneg : ∀ s hash, 0 ≤ arena.stored s hash
  roots_nodup : ∀ s, ((backend.getRoots s).map Prod.fst).Nodup
  mem_roots : ∀ s, arena.stored s = arena.rootCount s → ∀ hash count,
    (hash, count) ∈ backend.getRoots s ↔ 0 < count ∧ arena.rootCount s hash = count

variable (arena : Arena backend)

def Arena.children (s : backend.State) (hash : ArenaHash) : Option (List ArenaHash) :=
  (arena.node s hash).map backend.refs

def Arena.Flushed (s : backend.State) : Prop := arena.stored s = arena.rootCount s

def Arena.Culled (s : backend.State) (hash : ArenaHash) : Prop :=
  arena.rootCount s hash = 0 ∧
    ∃ a, Reach (arena.children s) hash a ∧ arena.node s a = none

open Classical in
/-- The count that the repair leaves a wanted root with. -/
noncomputable def Arena.settled (s : backend.State) (hash : ArenaHash) (want : Nat) : Int :=
  if arena.Culled s hash then arena.rootCount s hash else max (arena.rootCount s hash) want

def Arena.Raised (s : backend.State) (entry : ArenaHash × Nat) : Prop :=
  arena.rootCount s entry.1 < entry.2 ∧ ¬ arena.Culled s entry.1

def Arena.GivenUp (s : backend.State) (entry : ArenaHash × Nat) : Prop :=
  0 < entry.2 ∧ arena.Culled s entry.1

section Search

variable {arena} {s : backend.State}

theorem Arena.Same.refl (s : backend.State) : arena.Same s s := ⟨rfl, rfl, rfl⟩

theorem Arena.Same.trans {s s' s'' : backend.State} (h : arena.Same s s') (h' : arena.Same s' s'') :
    arena.Same s s'' :=
  ⟨h'.node.trans h.node, h'.rootCount.trans h.rootCount, h'.stored.trans h.stored⟩

theorem dagLoop_mono {fuel : Nat} {visited frontier : List ArenaHash} {r : Bool × backend.State}
    (h : dagLoop backend fuel s visited frontier = some r) (more : Nat) :
    dagLoop backend (fuel + more) s visited frontier = some r := by
  induction fuel generalizing s visited frontier with
  | zero =>
      cases frontier with
      | nil => simpa [dagLoop] using h
      | cons hash frontier => cases h
  | succ fuel ih =>
      cases frontier with
      | nil => simpa [dagLoop] using h
      | cons hash frontier =>
          rw [Nat.succ_add, dagLoop]
          rw [dagLoop] at h
          by_cases hv : hash ∈ visited
          · rw [if_pos hv] at h ⊢
            exact ih h
          · rw [if_neg hv] at h ⊢
            rcases hget : backend.get s hash with ⟨_ | node, s'⟩
            · rwa [hget] at h
            · rw [hget] at h
              exact ih h

/-- The loop is the search over the children, whatever reading caches. -/
theorem dagLoop_search (hl : arena.Lawful) {fuel : Nat} {visited frontier : List ArenaHash} {b : Bool}
    (h : search (arena.children s) fuel visited frontier = some b) :
    ∃ s', dagLoop backend fuel s visited frontier = some (b, s') ∧ arena.Same s s' := by
  induction fuel generalizing s visited frontier with
  | zero =>
      cases frontier with
      | nil =>
          obtain rfl := Option.some_inj.mp h
          exact ⟨s, rfl, .refl s⟩
      | cons hash frontier => cases h
  | succ fuel ih =>
      cases frontier with
      | nil =>
          obtain rfl := Option.some_inj.mp h
          exact ⟨s, rfl, .refl s⟩
      | cons hash frontier =>
          rw [search] at h
          rw [dagLoop]
          by_cases hv : hash ∈ visited
          · rw [if_pos hv] at h ⊢
            exact ih h
          · rw [if_neg hv] at h ⊢
            have hnode := hl.get_node s hash
            have hsame := hl.get_same s hash
            rcases hget : backend.get s hash with ⟨_ | node, s'⟩
            · rw [hget] at hnode hsame
              rw [Arena.children, ← hnode] at h
              obtain rfl := Option.some_inj.mp h
              exact ⟨s', rfl, hsame⟩
            · rw [hget] at hnode hsame
              have hchildren : arena.children s' = arena.children s := by
                unfold Arena.children
                rw [hsame.node]
              rw [Arena.children, ← hnode] at h
              change search (arena.children s) fuel _ _ = _ at h
              rw [← hchildren] at h
              obtain ⟨s'', hloop, hsame'⟩ := ih h
              exact ⟨s'', hloop, hsame.trans hsame'⟩

/-- The check ends and answers whether everything reachable is there. -/
theorem dagIsComplete_decides (hl : arena.Lawful) (s : backend.State) (hash : ArenaHash) :
    ∃ fuel complete s', (∀ more, dagIsComplete backend (fuel + more) s hash = some (complete, s')) ∧
      arena.Same s s' ∧
      (complete = true ↔ ∀ a, Reach (arena.children s) hash a → (arena.node s a).isSome) := by
  obtain ⟨fuel, b, hsearch, hb⟩ := search_decides (Set.toFinite {a | (arena.children s a).isSome}) hash
  obtain ⟨s', hloop, hsame⟩ := dagLoop_search hl (hsearch 0)
  refine ⟨fuel, b, s', dagLoop_mono hloop, hsame, hb.trans ?_⟩
  unfold Complete Arena.children
  simp only [Option.isSome_map]

end Search

section Loop

variable {arena} {s : backend.State}

theorem persist_iterate (hl : arena.Lawful) (hash : ArenaHash) (n : Nat) : ∀ s : backend.State,
    arena.node ((fun s => backend.persist s hash)^[n] s) = arena.node s ∧
      arena.rootCount ((fun s => backend.persist s hash)^[n] s) =
        Function.update (arena.rootCount s) hash (arena.rootCount s hash + n) ∧
      arena.stored ((fun s => backend.persist s hash)^[n] s) = arena.stored s := by
  induction n with
  | zero =>
      intro s
      refine ⟨rfl, ?_, rfl⟩
      simp
  | succ n ih =>
      intro s
      obtain ⟨hnode, hcount, hstored⟩ := hl.persist s hash
      obtain ⟨hnode', hcount', hstored'⟩ := ih (backend.persist s hash)
      rw [Function.iterate_succ_apply]
      refine ⟨hnode'.trans hnode, ?_, hstored'.trans hstored⟩
      rw [hcount', hcount, Function.update_self, Function.update_idem]
      congr 1
      push_cast
      ring

theorem lookup_roots (hl : arena.Lawful) (hs : arena.Flushed s) (hash : ArenaHash) :
    (((backend.getRoots s).lookup hash).getD 0 : Int) = arena.rootCount s hash := by
  have hmem := hl.mem_roots s hs hash
  have hnonneg := hl.stored_nonneg s hash
  rw [hs] at hnonneg
  cases hfound : (backend.getRoots s).lookup hash with
  | none =>
      by_contra hne
      obtain ⟨count, hcount⟩ := Int.eq_ofNat_of_zero_le hnonneg
      have hpos : 0 < count := by
        rw [hcount] at hne
        simp at hne
        omega
      have hrow := (hmem count).mpr ⟨hpos, hcount⟩
      rw [List.lookup_eq_none_iff] at hfound
      exact absurd (hfound _ hrow) (by simp)
  | some count =>
      obtain ⟨front, rest, hsplit, -⟩ := List.lookup_eq_some_iff.mp hfound
      have hrow : (hash, count) ∈ backend.getRoots s := by
        rw [hsplit]
        exact List.mem_append_right _ List.mem_cons_self
      exact ((hmem count).mp hrow).2.symm

open Classical in
/-- What the loop has done when it has treated some of the wanted roots. -/
structure After (arena : Arena backend) (s : backend.State) (strays : Nat)
    (done : List (ArenaHash × Nat)) (st : backend.State × RootCountRepair) : Prop where
  node : arena.node st.1 = arena.node s
  stored : arena.stored st.1 = arena.stored s
  treated : ∀ entry ∈ done, arena.rootCount st.1 entry.1 = arena.settled s entry.1 entry.2
  others : ∀ hash, hash ∉ done.map Prod.fst → arena.rootCount st.1 hash = arena.rootCount s hash
  raisedRoots : st.2.raisedRoots = (done.filter (fun entry => decide (arena.Raised s entry))).length
  raisedTotal : (st.2.raisedTotal : Int) = (done.map (fun entry =>
    arena.settled s entry.1 entry.2 - arena.rootCount s entry.1)).sum % 2 ^ 32
  culledRoots : st.2.culledRoots = (done.filter (fun entry => decide (arena.GivenUp s entry))).length
  strays : st.2.strays = strays

theorem settled_of_le {hash : ArenaHash} {want : Nat} (h : (want : Int) ≤ arena.rootCount s hash) :
    arena.settled s hash want = arena.rootCount s hash := by
  rw [Arena.settled]
  split
  · rfl
  · exact max_eq_left h

theorem settled_of_culled {hash : ArenaHash} (want : Nat) (h : arena.Culled s hash) :
    arena.settled s hash want = arena.rootCount s hash := if_pos h

theorem settled_of_raised {hash : ArenaHash} {want : Nat} (h : arena.Raised s (hash, want)) :
    arena.settled s hash want = want := by
  rw [Arena.settled, if_neg h.2]
  exact max_eq_right (le_of_lt h.1)

open Classical in
theorem After.push {strays : Nat} {done : List (ArenaHash × Nat)}
    {st st' : backend.State × RootCountRepair} {hash : ArenaHash} {want : Nat}
    (h : After arena s strays done st) (hnew : hash ∉ done.map Prod.fst)
    (hnode : arena.node st'.1 = arena.node st.1) (hstored : arena.stored st'.1 = arena.stored st.1)
    (hcount : arena.rootCount st'.1 =
      Function.update (arena.rootCount st.1) hash (arena.settled s hash want))
    (hraised : st'.2.raisedRoots =
      st.2.raisedRoots + if arena.Raised s (hash, want) then 1 else 0)
    (htotal : (st'.2.raisedTotal : Int) =
      (st.2.raisedTotal + (arena.settled s hash want - arena.rootCount s hash)) % 2 ^ 32)
    (hculled : st'.2.culledRoots =
      st.2.culledRoots + if arena.GivenUp s (hash, want) then 1 else 0)
    (hstrays : st'.2.strays = st.2.strays) : After arena s strays (done ++ [(hash, want)]) st' := by
  refine ⟨hnode.trans h.node, hstored.trans h.stored, ?_, ?_, ?_, ?_, ?_, hstrays.trans h.strays⟩
  · intro entry hentry
    rw [hcount]
    rcases List.mem_append.mp hentry with hentry | hentry
    · have hne : entry.1 ≠ hash := fun he => hnew (he ▸ List.mem_map_of_mem hentry)
      rw [Function.update_of_ne hne]
      exact h.treated entry hentry
    · rw [List.mem_singleton.mp hentry, Function.update_self]
  · intro hash' hnot
    rw [List.map_append, List.mem_append, not_or] at hnot
    have hne : hash' ≠ hash := fun he => hnot.2 (by rw [he]; exact List.mem_singleton_self _)
    rw [hcount, Function.update_of_ne hne]
    exact h.others hash' hnot.1
  · rw [hraised, h.raisedRoots, List.filter_append, List.length_append]
    by_cases hr : arena.Raised s (hash, want) <;> simp [hr]
  · rw [htotal, h.raisedTotal, List.map_append, List.sum_append, List.map_singleton,
      List.sum_singleton, Int.emod_add_emod]
  · rw [hculled, h.culledRoots, List.filter_append, List.length_append]
    by_cases hg : arena.GivenUp s (hash, want) <;> simp [hg]

theorem After.leave {strays : Nat} {done : List (ArenaHash × Nat)}
    {st st' : backend.State × RootCountRepair} {hash : ArenaHash} {want : Nat}
    (h : After arena s strays done st) (hnew : hash ∉ done.map Prod.fst) (hsame : arena.Same st.1 st'.1)
    (hsettled : arena.settled s hash want = arena.rootCount s hash)
    (hraised : ¬ arena.Raised s (hash, want)) (hcounts : st'.2.raisedRoots = st.2.raisedRoots ∧
      st'.2.raisedTotal = st.2.raisedTotal ∧ st'.2.strays = st.2.strays)
    (hculled : (arena.GivenUp s (hash, want) ∧ st'.2.culledRoots = st.2.culledRoots + 1) ∨
      (¬ arena.GivenUp s (hash, want) ∧ st'.2.culledRoots = st.2.culledRoots)) :
    After arena s strays (done ++ [(hash, want)]) st' := by
  refine h.push hnew hsame.node hsame.stored ?_ ?_ ?_ ?_ hcounts.2.2
  · rw [hsettled, ← h.others hash hnew, Function.update_eq_self]
    exact hsame.rootCount
  · rw [hcounts.1, if_neg hraised, Nat.add_zero]
  · rw [hcounts.2.1, hsettled, sub_self, add_zero, h.raisedTotal, Int.emod_emod_of_dvd _ (dvd_refl _)]
  · rcases hculled with ⟨hg, heq⟩ | ⟨hg, heq⟩
    · rw [heq, if_pos hg]
    · rw [heq, if_neg hg, Nat.add_zero]

theorem After.raise (hl : arena.Lawful) {strays : Nat} {done : List (ArenaHash × Nat)}
    {st : backend.State × RootCountRepair} {s' : backend.State} {hash : ArenaHash} {had want : Nat}
    (h : After arena s strays done st) (hnew : hash ∉ done.map Prod.fst) (hsame : arena.Same st.1 s')
    (hhad : (had : Int) = arena.rootCount s hash) (hless : had < want)
    (hraised : arena.Raised s (hash, want)) :
    After arena s strays (done ++ [(hash, want)])
      ((fun s => backend.persist s hash)^[want - had] s',
        { st.2 with
          raisedRoots := st.2.raisedRoots + 1
          raisedTotal := (st.2.raisedTotal + (want - had)) % 2 ^ 32 }) := by
  obtain ⟨hnode, hcount, hstored⟩ := persist_iterate hl hash (want - had) s'
  have hsettled := settled_of_raised hraised
  have hbefore : arena.rootCount st.1 hash = had := (h.others hash hnew).trans hhad.symm
  refine h.push hnew (hnode.trans hsame.node) (hstored.trans hsame.stored) ?_ ?_ ?_ ?_ rfl
  · dsimp only
    rw [hcount, hsame.rootCount, hsettled, hbefore]
    congr 1
    omega
  · rw [if_pos hraised]
  · dsimp only
    rw [hsettled, ← hhad]
    push_cast [Nat.cast_sub (le_of_lt hless)]
    rfl
  · rw [if_neg (fun hg : arena.GivenUp s (hash, want) => hraised.2 hg.2)]
    rfl

theorem raiseRoot_after (hl : arena.Lawful) (hs : arena.Flushed s) {strays : Nat}
    {done : List (ArenaHash × Nat)} {st : backend.State × RootCountRepair} {entry : ArenaHash × Nat}
    (hnew : entry.1 ∉ done.map Prod.fst) (h : After arena s strays done st) :
    ∃ fuel st', (∀ more, raiseRoot backend (fuel + more) (backend.getRoots s) st entry = some st') ∧
      After arena s strays (done ++ [entry]) st' := by
  obtain ⟨hash, want⟩ := entry
  have hhad := lookup_roots hl hs hash
  unfold raiseRoot
  generalize ((backend.getRoots s).lookup hash).getD 0 = had at hhad
  dsimp only
  by_cases hmissing : want - had = 0
  · have hle : (want : Int) ≤ arena.rootCount s hash := by omega
    refine ⟨0, st, fun more => if_pos hmissing, ?_⟩
    refine h.leave hnew (.refl _) (settled_of_le hle) (fun hr => not_lt.mpr hle hr.1) ⟨rfl, rfl, rfl⟩ ?_
    refine .inr ⟨?_, rfl⟩
    rintro ⟨hpos, hzero, -⟩
    dsimp only at hpos hzero
    omega
  · have hless : had < want := by omega
    simp only [if_neg hmissing]
    by_cases hzero : had = 0
    · obtain ⟨fuel, complete, s', hcheck, hsame, hcomplete⟩ := dagIsComplete_decides hl st.1 hash
      have hchildren : arena.children st.1 = arena.children s := by
        unfold Arena.children
        rw [h.node]
      rw [hchildren, h.node] at hcomplete
      have hcount : arena.rootCount s hash = 0 := by omega
      cases complete with
      | false =>
          have hculled : arena.Culled s hash := by
            refine ⟨hcount, ?_⟩
            by_contra hnone
            refine Bool.false_ne_true (hcomplete.mpr fun a ha => ?_)
            rw [Option.isSome_iff_ne_none]
            exact fun hgone => hnone ⟨a, ha, hgone⟩
          refine ⟨fuel, _, fun more => by rw [if_pos hzero, hcheck more]; rfl, ?_⟩
          refine h.leave hnew hsame (settled_of_culled want hculled) (fun hr => hr.2 hculled)
            ⟨rfl, rfl, rfl⟩ (.inl ⟨⟨?_, hculled⟩, rfl⟩)
          dsimp only
          omega
      | true =>
          have hthere := hcomplete.mp rfl
          have hraised : arena.Raised s (hash, want) := by
            refine ⟨by dsimp only; omega, ?_⟩
            rintro ⟨-, a, ha, hgone⟩
            have hsome := hthere a ha
            rw [hgone] at hsome
            cases hsome
          refine ⟨fuel, _, fun more => by rw [if_pos hzero, hcheck more]; rfl, ?_⟩
          exact h.raise hl hnew hsame hhad hless hraised
    · have hraised : arena.Raised s (hash, want) := by
        refine ⟨by dsimp only; omega, ?_⟩
        rintro ⟨hcount, -⟩
        dsimp only at hcount
        omega
      refine ⟨0, _, fun more => by rw [if_neg hzero]; rfl, ?_⟩
      exact h.raise hl hnew (.refl _) hhad hless hraised

theorem raiseLoop_after (hl : arena.Lawful) (hs : arena.Flushed s) {strays : Nat}
    (entries : List (ArenaHash × Nat)) : ∀ (done : List (ArenaHash × Nat))
      (st : backend.State × RootCountRepair), ((done ++ entries).map Prod.fst).Nodup →
      After arena s strays done st →
      ∃ fuel st', (∀ more, entries.foldlM (raiseRoot backend (fuel + more) (backend.getRoots s)) st =
          some st') ∧ After arena s strays (done ++ entries) st' := by
  induction entries with
  | nil =>
      intro done st _ h
      exact ⟨0, st, fun more => rfl, by rwa [List.append_nil]⟩
  | cons entry entries ih =>
      intro done st hnodup h
      have hnew : entry.1 ∉ done.map Prod.fst := by
        rw [List.map_append, List.map_cons] at hnodup
        exact fun hmem => (List.nodup_append.mp hnodup).2.2 _ hmem _ List.mem_cons_self rfl
      obtain ⟨fuel, st₁, hstep, hafter⟩ := raiseRoot_after hl hs hnew h
      rw [List.append_cons] at hnodup
      obtain ⟨fuel', st₂, hloop, hafter'⟩ := ih (done ++ [entry]) st₁ hnodup hafter
      refine ⟨fuel + fuel', st₂, fun more => ?_, by rwa [List.append_cons]⟩
      rw [List.foldlM_cons, Nat.add_assoc, hstep, Nat.add_left_comm]
      exact hloop (fuel + more)

end Loop

section Repair

variable {arena} {s s' : backend.State} {wanted : RootCounts} {repair : RootCountRepair}

/-- What the repair leaves, and the numbers that it returns. -/
structure Repaired (arena : Arena backend) (s : backend.State) (wanted : RootCounts)
    (repair : RootCountRepair) (s' : backend.State) : Prop where
  node : arena.node s' = arena.node s
  flushed : arena.Flushed s'
  culled : ∀ hash, arena.Culled s hash → arena.rootCount s' hash = 0
  raised : ∀ hash (want : Nat), wanted[hash]? = some want → ¬ arena.Culled s hash →
    arena.rootCount s' hash = max (arena.rootCount s hash) want
  others : ∀ hash, hash ∉ wanted → arena.rootCount s' hash = arena.rootCount s hash
  raisedRoots : repair.raisedRoots =
    {hash | ∃ want, wanted[hash]? = some want ∧ arena.Raised s (hash, want)}.ncard
  raisedTotal : (repair.raisedTotal : Int) = (wanted.toList.map (fun entry =>
    arena.rootCount s' entry.1 - arena.rootCount s entry.1)).sum % 2 ^ 32
  culledRoots : repair.culledRoots =
    {hash | ∃ want, wanted[hash]? = some want ∧ arena.GivenUp s (hash, want)}.ncard
  strays : repair.strays = {hash | 0 < arena.rootCount s hash ∧ hash ∉ wanted}.ncard

theorem mem_toList {entry : ArenaHash × Nat} :
    entry ∈ wanted.toList ↔ wanted[entry.1]? = some entry.2 :=
  Std.ExtTreeMap.mem_toList_iff_getElem?_eq_some

theorem keys_nodup (wanted : RootCounts) : (wanted.toList.map Prod.fst).Nodup := by
  refine List.pairwise_map.mpr (Std.ExtTreeMap.distinct_keys_toList.imp fun {a b} hne he => hne ?_)
  rw [he]
  exact Std.ReflOrd.compare_self

theorem ncard_rows {rows : List (ArenaHash × Nat)} (hnodup : (rows.map Prod.fst).Nodup)
    (p : ArenaHash × Nat → Bool) :
    (rows.filter p).length = {hash | ∃ n, (hash, n) ∈ rows ∧ p (hash, n) = true}.ncard := by
  have hkeys : ((rows.filter p).map Prod.fst).Nodup :=
    hnodup.sublist (List.filter_sublist.map Prod.fst)
  have hset : {hash | ∃ n, (hash, n) ∈ rows ∧ p (hash, n) = true} =
      (((rows.filter p).map Prod.fst).toFinset : Set ArenaHash) := by
    ext hash
    simp [List.mem_filter]
  rw [hset, Set.ncard_coe_finset, List.toFinset_card_of_nodup hkeys, List.length_map]

theorem strays_eq (hl : arena.Lawful) (hs : arena.Flushed s) (wanted : RootCounts) :
    ((backend.getRoots s).filter (fun root => !wanted.contains root.1)).length =
      {hash | 0 < arena.rootCount s hash ∧ hash ∉ wanted}.ncard := by
  rw [ncard_rows (hl.roots_nodup s)]
  congr 1
  ext hash
  simp only [Set.mem_ofPred_eq, hl.mem_roots s hs, Bool.not_eq_true', ← Bool.not_eq_true,
    Std.ExtTreeMap.contains_iff_mem]
  constructor
  · rintro ⟨count, ⟨hpos, hcount⟩, hnot⟩
    exact ⟨by omega, hnot⟩
  · rintro ⟨hpos, hnot⟩
    exact ⟨(arena.rootCount s hash).toNat, ⟨by omega, by omega⟩, hnot⟩

theorem settled_nonneg {hash : ArenaHash} {want : Nat} (h : 0 ≤ arena.rootCount s hash) :
    0 ≤ arena.settled s hash want := by
  rw [Arena.settled]
  split
  · exact h
  · exact le_trans h (le_max_left _ _)

theorem raiseRootCounts_repairs (hl : arena.Lawful) (hs : arena.Flushed s) (wanted : RootCounts) :
    ∃ fuel repair s', (∀ more, raiseRootCounts backend (fuel + more) s wanted = some (repair, s')) ∧
      Repaired arena s wanted repair s' := by
  have hnonneg : ∀ hash, 0 ≤ arena.rootCount s hash := by
    intro hash
    have hstored := hl.stored_nonneg s hash
    rwa [hs] at hstored
  obtain ⟨fuel, ⟨s₁, repair⟩, hloop, hafter⟩ := raiseLoop_after hl hs wanted.toList []
    (s, ⟨0, 0, 0, ((backend.getRoots s).filter (fun root => !wanted.contains root.1)).length⟩)
    (keys_nodup wanted) ⟨rfl, rfl, fun entry h => (List.not_mem_nil h).elim, fun hash _ => rfl, rfl, rfl,
      rfl, rfl⟩
  rw [List.nil_append] at hafter
  have hcounts : ∀ hash, 0 ≤ arena.rootCount s₁ hash := by
    intro hash
    by_cases hmem : hash ∈ wanted.toList.map Prod.fst
    · obtain ⟨entry, hentry, rfl⟩ := List.mem_map.mp hmem
      rw [hafter.treated entry hentry]
      exact settled_nonneg (hnonneg _)
    · rw [hafter.others hash hmem]
      exact hnonneg hash
  obtain ⟨hnode, hcount, hstored⟩ := hl.flush s₁ hcounts
  have hmem : ∀ hash, hash ∈ wanted.toList.map Prod.fst ↔ hash ∈ wanted := by
    intro hash
    rw [Std.ExtTreeMap.mem_iff_isSome_getElem?, Option.isSome_iff_exists, List.mem_map]
    constructor
    · rintro ⟨entry, hentry, rfl⟩
      exact ⟨entry.2, mem_toList.mp hentry⟩
    · rintro ⟨want, hwant⟩
      exact ⟨(hash, want), mem_toList.mpr hwant, rfl⟩
  have htreated : ∀ hash (want : Nat), wanted[hash]? = some want →
      arena.rootCount s₁ hash = arena.settled s hash want :=
    fun hash want hwant => hafter.treated (hash, want) (mem_toList.mpr hwant)
  refine ⟨fuel, repair, _, fun more => ?_, hnode.trans hafter.node, hstored.trans hcount.symm, ?_, ?_,
    ?_, ?_, ?_, ?_, hafter.strays.trans (strays_eq hl hs wanted)⟩
  · rw [raiseRootCounts, hloop more]
    rfl
  · intro hash hculled
    rw [hcount]
    by_cases hwanted : hash ∈ wanted
    · obtain ⟨want, hwant⟩ := Option.isSome_iff_exists.mp
        (Std.ExtTreeMap.mem_iff_isSome_getElem?.mp hwanted)
      rw [htreated hash want hwant, settled_of_culled want hculled, hculled.1]
    · rw [hafter.others hash (fun h => hwanted ((hmem hash).mp h)), hculled.1]
  · intro hash want hwant hculled
    rw [hcount, htreated hash want hwant, Arena.settled, if_neg hculled]
  · intro hash hnot
    rw [hcount]
    exact hafter.others hash (fun h => hnot ((hmem hash).mp h))
  · rw [hafter.raisedRoots, ncard_rows (keys_nodup wanted)]
    simp only [mem_toList, decide_eq_true_eq]
  · rw [hafter.raisedTotal]
    congr 2
    refine List.map_congr_left fun entry hentry => ?_
    rw [hcount, hafter.treated entry hentry]
  · rw [hafter.culledRoots, ncard_rows (keys_nodup wanted)]
    simp only [mem_toList, decide_eq_true_eq]

end Repair

section Window

variable {arenaRootHash : Bytes → LedgerVersion → Except String ArenaHash}
  {window : List (Bytes × LedgerVersion)} {wanted : RootCounts}

def Hashes (arenaRootHash : Bytes → LedgerVersion → Except String ArenaHash)
    (window : List (Bytes × LedgerVersion)) (hashes : List ArenaHash) : Prop :=
  List.Forall₂ (fun entry hash => arenaRootHash entry.1 entry.2 = .ok hash) window hashes

theorem tally_push {hashes : List ArenaHash} {hash : ArenaHash} {wanted : RootCounts}
    (h : ∀ a, wanted[a]? = if a ∈ hashes then some (hashes.count a % 2 ^ 32) else none) (a : ArenaHash) :
    (wanted.insert hash ((wanted.getD hash 0 + 1) % 2 ^ 32))[a]? =
      if a ∈ hashes ++ [hash] then some ((hashes ++ [hash]).count a % 2 ^ 32) else none := by
  have hold : wanted.getD hash 0 = hashes.count hash % 2 ^ 32 := by
    rw [Std.ExtTreeMap.getD_eq_getD_getElem?, h]
    split
    · rfl
    · rename_i hnot
      rw [List.count_eq_zero_of_not_mem hnot]
      rfl
  rw [Std.ExtTreeMap.getElem?_insert, hold]
  by_cases ha : hash = a
  · subst ha
    simp [Std.ReflOrd.compare_self, List.count_append]
  · have hne : ¬ compare hash a = .eq := fun he => ha (Std.LawfulEqOrd.eq_of_compare he)
    simp [hne, h, List.count_append, ha, Ne.symm ha]

theorem windowRootCounts_ok (h : windowRootCounts arenaRootHash window = .ok wanted) :
    ∃ hashes, Hashes arenaRootHash window hashes ∧
      ∀ hash, wanted[hash]? = if hash ∈ hashes then some (hashes.count hash % 2 ^ 32) else none := by
  refine foldlM_induct h (I := fun done wanted => ∃ hashes, Hashes arenaRootHash done hashes ∧
    ∀ hash, wanted[hash]? = if hash ∈ hashes then some (hashes.count hash % 2 ^ 32) else none) ?_ ?_
  · exact ⟨[], .nil, fun hash => by simp⟩
  · rintro done entry a b - ⟨hashes, hdone, hcounts⟩ hstep
    obtain ⟨hash, hhash, hstep⟩ := bind_ok.mp hstep
    obtain rfl := Except.ok.inj hstep
    exact ⟨hashes ++ [hash], List.rel_append hdone (.cons hhash .nil), tally_push hcounts⟩

theorem sum_counts {hashes : List ArenaHash}
    (h : ∀ hash, wanted[hash]? = if hash ∈ hashes then some (hashes.count hash) else none) :
    (wanted.toList.map Prod.snd).sum = hashes.length := by
  have hvalue : wanted.toList.map Prod.snd =
      (wanted.toList.map Prod.fst).map (fun hash => hashes.count hash) := by
    rw [List.map_map]
    refine List.map_congr_left fun entry hentry => ?_
    have hrow := mem_toList.mp hentry
    rw [h] at hrow
    split at hrow
    · exact (Option.some_inj.mp hrow).symm
    · cases hrow
  have hkeys : (wanted.toList.map Prod.fst).Perm hashes.dedup := by
    refine (List.perm_ext_iff_of_nodup (keys_nodup wanted) (List.nodup_dedup _)).mpr fun hash => ?_
    rw [List.mem_dedup, List.mem_map]
    constructor
    · rintro ⟨entry, hentry, rfl⟩
      have hrow := mem_toList.mp hentry
      rw [h] at hrow
      by_contra hnot
      rw [if_neg hnot] at hrow
      cases hrow
    · intro hmem
      exact ⟨(hash, hashes.count hash), mem_toList.mpr (by rw [h, if_pos hmem]), rfl⟩
  have hbeq : (Subtype.instBEq : BEq ArenaHash) = instBEqOfDecidableEq := lawful_beq_subsingleton _ _
  rw [hvalue, (hkeys.map _).sum_eq, hbeq]
  exact List.sum_map_count_dedup_eq_length hashes

end Window

section Claims

variable {arena} {s s' : backend.State} {wanted : RootCounts} {repair : RootCountRepair}

theorem unpersist_foldl (hl : arena.Lawful) (hashes : List ArenaHash) (hash : ArenaHash) :
    ∀ s, arena.rootCount (hashes.foldl backend.unpersist s) hash =
      arena.rootCount s hash - hashes.count hash := by
  induction hashes with
  | nil => simp
  | cons first hashes ih =>
      intro s
      rw [List.foldl_cons, ih, (hl.unpersist s first).2.1]
      by_cases hf : hash = first
      · subst hf
        rw [Function.update_self, List.count_cons_self]
        push_cast
        ring
      · rw [Function.update_of_ne hf, List.count_cons_of_ne (Ne.symm hf)]

theorem Repaired.nonneg (hl : arena.Lawful) (h : Repaired arena s wanted repair s') (hash : ArenaHash) :
    0 ≤ arena.rootCount s' hash := by
  have hstored := hl.stored_nonneg s' hash
  rwa [h.flushed] at hstored

/-- The window can roll over: no root is unpersisted below zero. -/
theorem Repaired.survives (hl : arena.Lawful) (h : Repaired arena s wanted repair s')
    {hashes : List ArenaHash} (hwanted : ∀ hash ∈ hashes, ¬ arena.Culled s hash ∧
      ∃ want : Nat, wanted[hash]? = some want ∧ hashes.count hash ≤ want) (hash : ArenaHash) :
    0 ≤ arena.rootCount (hashes.foldl backend.unpersist s') hash := by
  rw [unpersist_foldl hl]
  by_cases hmem : hash ∈ hashes
  · obtain ⟨hculled, want, hwant, hle⟩ := hwanted hash hmem
    rw [h.raised hash want hwant hculled]
    have hmax := le_max_right (arena.rootCount s hash) (want : Int)
    omega
  · have hzero := List.count_eq_zero_of_not_mem hmem
    have hnonneg := h.nonneg hl hash
    omega

theorem Repaired.again {s'' : backend.State} {repair' : RootCountRepair}
    (h : Repaired arena s wanted repair s') (h' : Repaired arena s' wanted repair' s'') :
    arena.rootCount s'' = arena.rootCount s' ∧ arena.node s'' = arena.node s' ∧
      repair'.raisedRoots = 0 ∧ repair'.raisedTotal = 0 := by
  have hculled : ∀ hash, arena.Culled s hash → arena.Culled s' hash := by
    intro hash hgone
    refine ⟨h.culled hash hgone, ?_⟩
    have hchildren : arena.children s' = arena.children s := by
      unfold Arena.children
      rw [h.node]
    rw [hchildren, h.node]
    exact hgone.2
  have henough : ∀ hash (want : Nat), wanted[hash]? = some want → ¬ arena.Culled s' hash →
      (want : Int) ≤ arena.rootCount s' hash := by
    intro hash want hwant hnot
    rw [h.raised hash want hwant (fun hgone => hnot (hculled hash hgone))]
    exact le_max_right _ _
  have hcount : arena.rootCount s'' = arena.rootCount s' := by
    funext hash
    by_cases hgone : arena.Culled s' hash
    · rw [h'.culled hash hgone, hgone.1]
    · cases hwant : wanted[hash]? with
      | none =>
          refine h'.others hash fun hmem => ?_
          rw [Std.ExtTreeMap.mem_iff_isSome_getElem?, hwant] at hmem
          cases hmem
      | some want =>
          rw [h'.raised hash want hwant hgone]
          exact max_eq_left (henough hash want hwant hgone)
  refine ⟨hcount, h'.node, ?_, ?_⟩
  · rw [h'.raisedRoots]
    have hnone : {hash | ∃ want, wanted[hash]? = some want ∧ arena.Raised s' (hash, want)} = ∅ := by
      apply Set.eq_empty_of_forall_notMem
      rintro hash ⟨want, hwant, hless, hnot⟩
      exact absurd hless (not_lt.mpr (henough hash want hwant hnot))
    rw [hnone, Set.ncard_empty]
  · have htotal := h'.raisedTotal
    have hzero : wanted.toList.map (fun entry =>
        arena.rootCount s'' entry.1 - arena.rootCount s' entry.1) = wanted.toList.map (fun _ => 0) :=
      List.map_congr_left fun entry _ => by rw [hcount, sub_self]
    rw [hzero] at htotal
    simpa using htotal

theorem Repaired.total_le (h : Repaired arena s wanted repair s')
    (hnonneg : ∀ hash, 0 ≤ arena.rootCount s hash) :
    0 ≤ (wanted.toList.map (fun entry =>
        arena.rootCount s' entry.1 - arena.rootCount s entry.1)).sum ∧
      (wanted.toList.map (fun entry =>
        arena.rootCount s' entry.1 - arena.rootCount s entry.1)).sum ≤
          ((wanted.toList.map Prod.snd).sum : Int) := by
  have hone : ∀ entry ∈ wanted.toList, 0 ≤ arena.rootCount s' entry.1 - arena.rootCount s entry.1 ∧
      arena.rootCount s' entry.1 - arena.rootCount s entry.1 ≤ entry.2 := by
    intro entry hentry
    have hpos := hnonneg entry.1
    by_cases hgone : arena.Culled s entry.1
    · have hbefore := hgone.1
      have hafter := h.culled entry.1 hgone
      omega
    · have hafter := h.raised entry.1 entry.2 (mem_toList.mp hentry) hgone
      omega
  constructor
  · refine List.sum_nonneg fun n hn => ?_
    obtain ⟨entry, hentry, rfl⟩ := List.mem_map.mp hn
    exact (hone entry hentry).1
  · have hsum := List.sum_le_sum (fun entry hentry => (hone entry hentry).2)
    calc (wanted.toList.map (fun entry =>
          arena.rootCount s' entry.1 - arena.rootCount s entry.1)).sum
        ≤ (wanted.toList.map (fun entry => (entry.2 : Int))).sum := hsum
      _ = ((wanted.toList.map Prod.snd).sum : Int) := by
          rw [Nat.cast_list_sum, List.map_map]
          rfl

variable (arena) in
/-- The repair is exact, on every arena and for every window. -/
theorem root_count_repair (hl : arena.Lawful) :
    (∀ s hash, ∃ fuel complete s',
      (∀ more, dagIsComplete backend (fuel + more) s hash = some (complete, s')) ∧ arena.Same s s' ∧
        (complete = true ↔ ∀ a, Reach (arena.children s) hash a → (arena.node s a).isSome)) ∧
    (∀ s, arena.Flushed s → ∀ wanted, ∃ fuel repair s',
      (∀ more, raiseRootCounts backend (fuel + more) s wanted = some (repair, s')) ∧
      Repaired arena s wanted repair s' ∧
      ((wanted.toList.map Prod.snd).sum < 2 ^ 32 → (repair.raisedTotal : Int) =
        (wanted.toList.map (fun entry =>
          arena.rootCount s' entry.1 - arena.rootCount s entry.1)).sum) ∧
      (∃ fuel' repair' s'',
        (∀ more, raiseRootCounts backend (fuel' + more) s' wanted = some (repair', s'')) ∧
        arena.rootCount s'' = arena.rootCount s' ∧ arena.node s'' = arena.node s' ∧
        repair'.raisedRoots = 0 ∧ repair'.raisedTotal = 0) ∧
      ∀ hashes : List ArenaHash, (∀ hash ∈ hashes, ¬ arena.Culled s hash ∧
          ∃ want : Nat, wanted[hash]? = some want ∧ hashes.count hash ≤ want) →
        ∀ hash, 0 ≤ arena.rootCount (hashes.foldl backend.unpersist s') hash) ∧
    ∀ arenaRootHash window wanted, windowRootCounts arenaRootHash window = .ok wanted →
      window.length < 2 ^ 32 → ∃ hashes, Hashes arenaRootHash window hashes ∧
        (∀ hash, wanted[hash]? = if hash ∈ hashes then some (hashes.count hash) else none) ∧
        (wanted.toList.map Prod.snd).sum = window.length := by
  refine ⟨dagIsComplete_decides hl, ?_, ?_⟩
  · intro s hs wanted
    obtain ⟨fuel, repair, s', hrun, hrepaired⟩ := raiseRootCounts_repairs hl hs wanted
    obtain ⟨fuel', repair', s'', hrun', hrepaired'⟩ :=
      raiseRootCounts_repairs hl hrepaired.flushed wanted
    refine ⟨fuel, repair, s', hrun, hrepaired, ?_, ⟨fuel', repair', s'', hrun',
      hrepaired.again hrepaired'⟩, fun hashes hwanted => hrepaired.survives hl hwanted⟩
    intro hsum
    obtain ⟨hpos, hle⟩ := hrepaired.total_le fun hash => by
      have hstored := hl.stored_nonneg s hash
      rwa [hs] at hstored
    rw [hrepaired.raisedTotal]
    exact Int.emod_eq_of_lt hpos (by omega)
  · intro arenaRootHash window wanted htally hlen
    obtain ⟨hashes, hhashes, hcounts⟩ := windowRootCounts_ok htally
    have hcount : ∀ hash,
        wanted[hash]? = if hash ∈ hashes then some (hashes.count hash) else none := by
      intro hash
      have hless : hashes.count hash < 2 ^ 32 := by
        have hle := List.count_le_length (a := hash) (l := hashes)
        rw [← hhashes.length_eq] at hle
        omega
      rw [hcounts, Nat.mod_eq_of_lt hless]
    exact ⟨hashes, hhashes, hcount, (sum_counts hcount).trans hhashes.length_eq.symm⟩

end Claims

section Samples

structure Memory where
  nodes : Std.ExtTreeMap ArenaHash (List ArenaHash)
  counts : Std.ExtTreeMap ArenaHash Int
  flushed : RootCounts

def addCount (s : Memory) (hash : ArenaHash) (n : Int) : Memory :=
  { s with counts := s.counts.insert hash (s.counts.getD hash 0 + n) }

def memory : StorageBackend where
  State := Memory
  Object := List ArenaHash
  refs object := object
  getRoots s := s.flushed.toList.filter (fun root => 0 < root.2)
  get s hash := (s.nodes[hash]?, s)
  persist s hash := addCount s hash 1
  unpersist s hash := addCount s hash (-1)
  flushAllChangesToDb s := { s with flushed := s.counts.map (fun _ count => count.toNat) }

def memoryArena : Arena memory where
  node s hash := s.nodes[hash]?
  rootCount s hash := s.counts.getD hash 0
  stored s hash := s.flushed.getD hash 0

theorem addCount_counts (s : Memory) (hash : ArenaHash) (n : Int) :
    (fun a => (addCount s hash n).counts.getD a 0) =
      Function.update (fun a => s.counts.getD a 0) hash (s.counts.getD hash 0 + n) := by
  funext a
  by_cases ha : a = hash
  · subst ha
    simp [addCount]
  · have hne : ¬ compare hash a = .eq := fun he => ha (Std.LawfulEqOrd.eq_of_compare he).symm
    rw [Function.update_of_ne ha]
    simp [addCount, Std.ExtTreeMap.getD_insert, hne]

theorem memoryArena_lawful : memoryArena.Lawful where
  get_node s hash := rfl
  get_same s hash := ⟨rfl, rfl, rfl⟩
  persist s hash := ⟨rfl, addCount_counts s hash 1, rfl⟩
  unpersist s hash := ⟨rfl, addCount_counts s hash (-1), rfl⟩
  flush s hs := by
    refine ⟨rfl, rfl, ?_⟩
    funext hash
    have hpos : 0 ≤ s.counts.getD hash 0 := hs hash
    change (((s.counts.map (fun _ count => count.toNat)).getD hash 0 : Nat) : Int) = s.counts.getD hash 0
    rw [Std.ExtTreeMap.getD_eq_getD_getElem?] at hpos
    rw [Std.ExtTreeMap.getD_eq_getD_getElem?, Std.ExtTreeMap.getD_eq_getD_getElem?,
      Std.ExtTreeMap.getElem?_map]
    cases hcount : s.counts[hash]? with
    | none => rfl
    | some count =>
        rw [hcount] at hpos
        exact Int.toNat_of_nonneg hpos
  stored_nonneg s hash := Int.natCast_nonneg _
  roots_nodup s := (keys_nodup s.flushed).sublist (List.filter_sublist.map Prod.fst)
  mem_roots s hs hash count := by
    have hsame : ((s.flushed.getD hash 0 : Nat) : Int) = memoryArena.rootCount s hash :=
      congrFun hs hash
    rw [← hsame, Std.ExtTreeMap.getD_eq_getD_getElem?, Int.natCast_inj]
    change (hash, count) ∈ s.flushed.toList.filter (fun root => 0 < root.2) ↔ _
    rw [List.mem_filter, mem_toList, decide_eq_true_eq, and_comm]
    refine and_congr_right fun hpos => ?_
    cases hrow : s.flushed[hash]? with
    | none =>
        refine iff_of_false (by simp) fun hzero => ?_
        change 0 = count at hzero
        dsimp only at hpos
        omega
    | some n => exact Option.some_inj

def sampleMemory : Memory where
  nodes := ((∅ : Std.ExtTreeMap ArenaHash (List ArenaHash)).insert (.filled 32 1)
    [.filled 32 2]).insert (.filled 32 2) []
  counts := (∅ : Std.ExtTreeMap ArenaHash Int).insert (.filled 32 1) 2
  flushed := (∅ : RootCounts).insert (.filled 32 1) 2

def sampleWanted : RootCounts :=
  ((∅ : RootCounts).insert (.filled 32 1) 5).insert (.filled 32 3) 1

theorem root_count_repair_sample : ∃ fuel repair s',
    raiseRootCounts memory fuel sampleMemory sampleWanted = some (repair, s') ∧
      memoryArena.rootCount s' (.filled 32 1) = 5 ∧ memoryArena.rootCount s' (.filled 32 3) = 0 := by
  obtain ⟨-, hrepair, -⟩ := root_count_repair memoryArena memoryArena_lawful
  have hflushed : memoryArena.Flushed sampleMemory := by
    funext hash
    change (((∅ : RootCounts).insert (.filled 32 1) 2).getD hash 0 : Int) =
      ((∅ : Std.ExtTreeMap ArenaHash Int).insert (.filled 32 1) 2).getD hash 0
    rw [Std.ExtTreeMap.getD_insert, Std.ExtTreeMap.getD_insert]
    split <;> simp
  obtain ⟨fuel, repair, s', hrun, hrepaired, -⟩ := hrepair sampleMemory hflushed sampleWanted
  refine ⟨fuel, repair, s', hrun 0, ?_, ?_⟩
  · apply hrepaired.raised (.filled 32 1) 5 (by decide +kernel)
    rintro ⟨hzero, -⟩
    exact absurd hzero (by decide +kernel)
  · refine hrepaired.culled (.filled 32 3) ⟨by decide +kernel, .filled 32 3, .root, by decide +kernel⟩

end Samples

end Nightfrost.RootRepair
