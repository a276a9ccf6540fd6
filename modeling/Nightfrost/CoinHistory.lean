import Mathlib

namespace Nightfrost.CoinHistory

variable {K C : Type} {key : C → K} {same : C → C → Prop}

inductive Move (C : Type)
  | create (txId : Nat) (coin : C)
  | spend (txId : Nat) (coin : C)
  deriving DecidableEq

def Move.coin : Move C → C
  | .create _ c | .spend _ c => c

def Move.txId : Move C → Nat
  | .create txId _ | .spend txId _ => txId

/-- A coin is created at most once, spent at most once, and only after its
creation, in which the spent coin was the `same`. -/
def Admissible (key : C → K) (same : C → C → Prop) (past : List (Move C)) : Move C → Prop
  | .create _ c => ∀ txId c', .create txId c' ∈ past → key c' ≠ key c
  | .spend _ c =>
      (∀ txId c', .spend txId c' ∈ past → key c' ≠ key c) ∧
        ∃ txId c', .create txId c' ∈ past ∧ key c' = key c ∧ same c' c

def Consistent (key : C → K) (same : C → C → Prop) (moves : List (Move C)) : Prop :=
  ∀ past move rest, moves = past ++ move :: rest → Admissible key same past move

theorem Consistent.of_append {moves more : List (Move C)}
    (h : Consistent key same (moves ++ more)) : Consistent key same moves := by
  intro past move rest he
  exact h past move (rest ++ more) (by rw [he]; simp)

theorem Consistent.nil : Consistent key same [] := by
  intro past move rest he
  simp at he

theorem Consistent.push {moves : List (Move C)} {move : Move C} (h : Consistent key same moves)
    (ha : Admissible key same moves move) : Consistent key same (moves ++ [move]) := by
  intro past m rest he
  rcases List.eq_nil_or_concat rest with rfl | ⟨rest, m', rfl⟩
  · obtain ⟨rfl, hm⟩ := List.append_inj' he rfl
    rwa [← List.singleton_inj.mp hm]
  · rw [List.concat_eq_append, ← List.cons_append, ← List.append_assoc] at he
    exact h past m rest (List.append_inj' he rfl).1

theorem Consistent.last {moves : List (Move C)} {move : Move C}
    (h : Consistent key same (moves ++ [move])) : Admissible key same moves move :=
  h moves move [] rfl

theorem Consistent.created {moves : List (Move C)} (h : Consistent key same moves) {txId : Nat}
    {c : C} (hs : .spend txId c ∈ moves) : ∃ txId' c', .create txId' c' ∈ moves ∧ key c' = key c := by
  obtain ⟨past, rest, he⟩ := List.append_of_mem hs
  obtain ⟨-, txId', c', hc, hk, -⟩ := h past _ rest he
  exact ⟨txId', c', by rw [he]; exact List.mem_append_left _ hc, hk⟩

theorem Consistent.created_once {moves : List (Move C)} (h : Consistent key same moves) {i j : Nat}
    {c d : C} (hc : .create i c ∈ moves) (hd : .create j d ∈ moves) (hk : key c = key d) : c = d := by
  obtain ⟨past, rest, rfl⟩ := List.append_of_mem hc
  rcases List.mem_append.mp hd with hd | hd
  · exact absurd hk.symm (h past _ rest rfl j d hd)
  · rcases List.mem_cons.mp hd with hd | hd
    · exact (Move.create.inj hd).2.symm
    · obtain ⟨front, back, rfl⟩ := List.append_of_mem hd
      exact absurd hk (h (past ++ .create i c :: front) (.create j d) back (by simp) i c (by simp))

structure Entry (C : Type) where
  coin : C
  createdBy : Nat
  spentBy : Option Nat

/-- A coin table that records a history: one entry for each created coin, with
the transactions that created and spent it. -/
def Records (key : C → K) (lookup : K → Option (Entry C)) (moves : List (Move C)) : Prop :=
  ∀ k e, lookup k = some e ↔ .create e.createdBy e.coin ∈ moves ∧ key e.coin = k ∧
    ∀ txId, e.spentBy = some txId ↔ ∃ c, .spend txId c ∈ moves ∧ key c = k

theorem Records.empty : Records key (fun _ => none) ([] : List (Move C)) := by
  intro k e
  simp

theorem Records.create [DecidableEq K] {lookup lookup' : K → Option (Entry C)}
    {moves : List (Move C)} {txId : Nat} {c : C} (h : Records key lookup moves)
    (hc : Consistent key same (moves ++ [.create txId c]))
    (hl : ∀ k, lookup' k = if key c = k then some ⟨c, txId, none⟩ else lookup k) :
    Records key lookup' (moves ++ [.create txId c]) := by
  have hspend : ∀ txId' c', .spend txId' c' ∈ moves → key c' ≠ key c := by
    intro txId' c' hs hk
    obtain ⟨i, d, hd, hdk⟩ := hc.of_append.created hs
    exact hc.last i d hd (hdk.trans hk)
  intro k e
  rw [hl]
  by_cases hk : key c = k
  · subst hk
    rw [if_pos rfl]
    constructor
    · intro he
      obtain rfl := Option.some.inj he
      refine ⟨by simp, rfl, fun txId' => ⟨fun h => (by cases h), ?_⟩⟩
      rintro ⟨c', hmem, hk'⟩
      exact absurd hk' (hspend txId' c' (by simpa using hmem))
    · rintro ⟨hmem, hk', hsp⟩
      have hnew : e.createdBy = txId ∧ e.coin = c := by
        rcases List.mem_append.mp hmem with hold | hnew
        · exact absurd hk' (hc.last _ _ hold)
        · simpa using hnew
      have hnone : e.spentBy = none := by
        rw [Option.eq_none_iff_forall_ne_some]
        intro j hj
        obtain ⟨c', hmem', hk'⟩ := (hsp j).mp hj
        exact hspend j c' (by simpa using hmem') hk'
      obtain ⟨coin, createdBy, spentBy⟩ := e
      simp_all
  · rw [if_neg hk, h k e]
    have hne : ∀ i c', key c' = k → (Move.create i c' ∈ moves ++ [.create txId c] ↔
        .create i c' ∈ moves) := by
      intro i c' hk'
      simp only [List.mem_append, List.mem_singleton, Move.create.injEq, or_iff_left_iff_imp]
      rintro ⟨-, rfl⟩
      exact absurd hk' hk
    constructor
    · rintro ⟨hmem, hk', hsp⟩
      exact ⟨(hne _ _ hk').mpr hmem, hk', fun j => by simpa using hsp j⟩
    · rintro ⟨hmem, hk', hsp⟩
      exact ⟨(hne _ _ hk').mp hmem, hk', fun j => by simpa using hsp j⟩

theorem Records.find {lookup : K → Option (Entry C)} {moves : List (Move C)} {txId : Nat} {c : C}
    (h : Records key lookup moves) (ha : Admissible key same moves (.spend txId c)) :
    ∃ e, lookup (key c) = some e ∧ e.spentBy = none ∧ key e.coin = key c ∧ same e.coin c := by
  obtain ⟨hno, i, d, hd, hk, hsame⟩ := ha
  refine ⟨⟨d, i, none⟩, (h _ _).mpr ⟨hd, hk, fun j => ⟨fun h => (by cases h), ?_⟩⟩, rfl,
    hk, hsame⟩
  rintro ⟨c', hmem, hk'⟩
  exact absurd hk' (hno j c' hmem)

theorem Records.spend [DecidableEq K] {lookup lookup' : K → Option (Entry C)}
    {moves : List (Move C)} {txId : Nat} {c : C} {e : Entry C} (h : Records key lookup moves)
    (ha : Admissible key same moves (.spend txId c)) (he : lookup (key c) = some e)
    (hl : ∀ k, lookup' k = if key c = k then some { e with spentBy := some txId } else lookup k) :
    Records key lookup' (moves ++ [.spend txId c]) := by
  obtain ⟨hmem, hkey, -⟩ := (h _ _).mp he
  intro k f
  rw [hl]
  by_cases hk : key c = k
  · subst hk
    rw [if_pos rfl]
    have hone : ∀ j, (∃ c', .spend j c' ∈ moves ++ [Move.spend txId c] ∧ key c' = key c) ↔
        txId = j := by
      intro j
      constructor
      · rintro ⟨c', hs, hk'⟩
        rcases List.mem_append.mp hs with hold | hnew
        · exact absurd hk' (ha.1 j c' hold)
        · exact (Move.spend.inj (List.mem_singleton.mp hnew)).1.symm
      · rintro rfl
        exact ⟨c, by simp, rfl⟩
    constructor
    · intro hf
      obtain rfl := Option.some.inj hf
      exact ⟨List.mem_append_left _ hmem, hkey, fun j => by rw [hone]; simp⟩
    · rintro ⟨hmem', hkey', hsp⟩
      have hspent : f.spentBy = some txId := (hsp txId).mpr ((hone txId).mpr rfl)
      have hold : lookup (key c) = some { f with spentBy := none } := by
        refine (h _ _).mpr ⟨by simpa using hmem', hkey', fun j => ?_⟩
        refine ⟨fun h => (by cases h), ?_⟩
        rintro ⟨c', hs, hk'⟩
        exact absurd hk' (ha.1 j c' hs)
      obtain rfl := Option.some.inj (he.symm.trans hold)
      rw [← hspent]
  · rw [if_neg hk, h k f]
    have hne : ∀ j, (∃ c', .spend j c' ∈ moves ++ [Move.spend txId c] ∧ key c' = k) ↔
        ∃ c', .spend j c' ∈ moves ∧ key c' = k := by
      intro j
      constructor
      · rintro ⟨c', hs, hk'⟩
        rcases List.mem_append.mp hs with hold | hnew
        · exact ⟨c', hold, hk'⟩
        · obtain ⟨-, rfl⟩ := Move.spend.inj (List.mem_singleton.mp hnew)
          exact absurd hk' hk
      · rintro ⟨c', hs, hk'⟩
        exact ⟨c', List.mem_append_left _ hs, hk'⟩
    simp only [hne]
    simp

section Net

def Move.delta (weight : C → Nat) : Move C → Int
  | .create _ c => weight c
  | .spend _ c => -weight c

/-- The total weight of the coins that a history leaves unspent. -/
def net (weight : C → Nat) (moves : List (Move C)) : Int := (moves.map (Move.delta weight)).sum

@[simp] theorem net_nil (weight : C → Nat) : net weight [] = 0 := rfl

@[simp] theorem net_append (weight : C → Nat) (moves more : List (Move C)) :
    net weight (moves ++ more) = net weight moves + net weight more := by
  simp [net]

@[simp] theorem net_singleton (weight : C → Nat) (move : Move C) :
    net weight [move] = move.delta weight := by
  simp [net]

end Net

end Nightfrost.CoinHistory
