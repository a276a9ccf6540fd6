import Nightfrost.CoinHistory

namespace Nightfrost.CoinLedger

open CoinHistory

variable {K C : Type}

/-- The coins that can be spent, and the keys of all that ever could. -/
structure Coins (K C : Type) where
  unspent : Set C
  seen : Set K

def Coins.empty : Coins K C := ⟨∅, ∅⟩

structure Phase (C : Type) where
  inputs : List C
  outputs : List C

variable {key : C → K}

/-- A phase spends coins that are there, each once, and creates coins under new keys. -/
structure Applies (key : C → K) (s : Coins K C) (phase : Phase C) (s' : Coins K C) : Prop where
  inputs_nodup : phase.inputs.Nodup
  inputs_mem : ∀ c ∈ phase.inputs, c ∈ s.unspent
  outputs_nodup : (phase.outputs.map key).Nodup
  outputs_new : ∀ c ∈ phase.outputs, key c ∉ s.seen
  unspent : ∀ c, c ∈ s'.unspent ↔ (c ∈ s.unspent ∧ c ∉ phase.inputs) ∨ c ∈ phase.outputs
  seen : ∀ k, k ∈ s'.seen ↔ k ∈ s.seen ∨ k ∈ phase.outputs.map key

/-- Parts in turn: a later one may spend what an earlier one has created. -/
inductive AppliesAll (key : C → K) : Coins K C → List (Phase C) → Coins K C → Prop
  | nil (s : Coins K C) : AppliesAll key s [] s
  | cons {s s' s'' : Coins K C} {phase : Phase C} {phases : List (Phase C)} (h : Applies key s phase s')
      (hrest : AppliesAll key s' phases s'') : AppliesAll key s (phase :: phases) s''

structure WellKept (key : C → K) (s : Coins K C) : Prop where
  seen : ∀ c ∈ s.unspent, key c ∈ s.seen
  injective : ∀ c ∈ s.unspent, ∀ d ∈ s.unspent, key c = key d → c = d

structure Batched (key : C → K) (s : Coins K C) (outputs inputs : List C) (s' : Coins K C) : Prop where
  outputs_nodup : (outputs.map key).Nodup
  outputs_new : ∀ c ∈ outputs, key c ∉ s.seen
  inputs_nodup : (inputs.map key).Nodup
  inputs_mem : ∀ c ∈ inputs, c ∈ s.unspent ∨ c ∈ outputs
  unspent : ∀ c, c ∈ s'.unspent ↔ (c ∈ s.unspent ∨ c ∈ outputs) ∧ c ∉ inputs
  seen : ∀ k, k ∈ s'.seen ↔ k ∈ s.seen ∨ k ∈ outputs.map key

variable {s s' s'' : Coins K C} {phase : Phase C} {phases : List (Phase C)} {outputs inputs : List C}

theorem Applies.wellKept (h : Applies key s phase s') (hs : WellKept key s) : WellKept key s' := by
  have hout : ∀ c ∈ s'.unspent, c ∈ s.unspent ∨ c ∈ phase.outputs := by
    intro c hc
    rcases (h.unspent c).mp hc with ⟨hold, -⟩ | hnew
    · exact .inl hold
    · exact .inr hnew
  constructor
  · intro c hc
    rcases hout c hc with hold | hnew
    · exact (h.seen _).mpr (.inl (hs.seen c hold))
    · exact (h.seen _).mpr (.inr (List.mem_map_of_mem hnew))
  · intro c hc d hd hk
    rcases hout c hc with hc | hc <;> rcases hout d hd with hd | hd
    · exact hs.injective c hc d hd hk
    · exact absurd (hk ▸ hs.seen c hc) (h.outputs_new d hd)
    · exact absurd (hk ▸ hs.seen d hd) (h.outputs_new c hc)
    · exact List.inj_on_of_nodup_map h.outputs_nodup hc hd hk

/-- That phases create all their coins before any is spent comes to the same. -/
theorem AppliesAll.batched (h : AppliesAll key s phases s') (hs : WellKept key s) :
    Batched key s (phases.flatMap Phase.outputs) (phases.flatMap Phase.inputs) s' := by
  induction h with
  | nil s =>
      exact ⟨List.nodup_nil, by simp, List.nodup_nil, by simp, by simp, by simp⟩
  | @cons s s' s'' phase phases hphase hrest ih =>
      have ih := ih (hphase.wellKept hs)
      have hseen : ∀ k, k ∈ s.seen → k ∈ s'.seen := fun k hk => (hphase.seen k).mpr (.inl hk)
      have hspent : ∀ c ∈ phase.inputs, key c ∈ s.seen := fun c hc => hs.seen c (hphase.inputs_mem c hc)
      have hcreated : ∀ c ∈ phase.outputs, key c ∈ s'.seen :=
        fun c hc => (hphase.seen _).mpr (.inr (List.mem_map_of_mem hc))
      rw [List.flatMap_cons, List.flatMap_cons]
      refine ⟨?_, ?_, ?_, ?_, ?_, ?_⟩
      · rw [List.map_append, List.nodup_append]
        refine ⟨hphase.outputs_nodup, ih.outputs_nodup, ?_⟩
        intro k hk k' hk' heq
        obtain ⟨c, hc, rfl⟩ := List.mem_map.mp hk
        obtain ⟨d, hd, rfl⟩ := List.mem_map.mp hk'
        exact ih.outputs_new d hd (heq ▸ hcreated c hc)
      · intro c hc
        rcases List.mem_append.mp hc with hc | hc
        · exact hphase.outputs_new c hc
        · exact fun hk => ih.outputs_new c hc (hseen _ hk)
      · rw [List.map_append, List.nodup_append]
        refine ⟨?_, ih.inputs_nodup, ?_⟩
        · refine List.Nodup.map_on ?_ hphase.inputs_nodup
          intro c hc d hd hk
          exact hs.injective c (hphase.inputs_mem c hc) d (hphase.inputs_mem d hd) hk
        · intro k hk k' hk' heq
          obtain ⟨c, hc, rfl⟩ := List.mem_map.mp hk
          obtain ⟨d, hd, rfl⟩ := List.mem_map.mp hk'
          rcases ih.inputs_mem d hd with hold | hnew
          · rcases (hphase.unspent d).mp hold with ⟨hold, hkept⟩ | hout
            · have hsame := hs.injective c (hphase.inputs_mem c hc) d hold heq
              exact hkept (hsame ▸ hc)
            · exact hphase.outputs_new d hout (heq ▸ hspent c hc)
          · exact ih.outputs_new d hnew (heq ▸ hseen _ (hspent c hc))
      · intro c hc
        rcases List.mem_append.mp hc with hc | hc
        · exact .inl (hphase.inputs_mem c hc)
        · rcases ih.inputs_mem c hc with hold | hnew
          · rcases (hphase.unspent c).mp hold with ⟨hold, -⟩ | hout
            · exact .inl hold
            · exact .inr (List.mem_append_left _ hout)
          · exact .inr (List.mem_append_right _ hnew)
      · intro c
        have hkept : c ∈ phase.outputs → c ∉ phase.inputs :=
          fun hout hin => hphase.outputs_new c hout (hspent c hin)
        have hlater : c ∈ phases.flatMap Phase.outputs → c ∉ phase.inputs :=
          fun hout hin => ih.outputs_new c hout (hseen _ (hspent c hin))
        rw [ih.unspent, hphase.unspent, List.mem_append, List.mem_append]
        tauto
      · intro k
        rw [ih.seen, hphase.seen, List.map_append, List.mem_append, or_assoc]

/-- Moves of coins that lead to a state: what is seen was created, and what was created
and not spent is unspent. -/
structure Leads (key : C → K) (moves : List (Move C)) (s : Coins K C) : Prop where
  consistent : Consistent key Eq moves
  seen : ∀ k, k ∈ s.seen ↔ ∃ txId c, .create txId c ∈ moves ∧ key c = k
  unspent : ∀ c, c ∈ s.unspent ↔ (∃ txId, .create txId c ∈ moves) ∧
    ∀ txId d, .spend txId d ∈ moves → key d ≠ key c

theorem Leads.start : Leads key [] Coins.empty :=
  ⟨Consistent.nil, by simp [Coins.empty], by simp [Coins.empty]⟩

variable {moves : List (Move C)}

theorem Leads.wellKept (h : Leads key moves s) : WellKept key s := by
  constructor
  · intro c hc
    obtain ⟨⟨txId, hcreate⟩, -⟩ := (h.unspent c).mp hc
    exact (h.seen _).mpr ⟨txId, c, hcreate, rfl⟩
  · intro c hc d hd hk
    obtain ⟨⟨i, hc⟩, -⟩ := (h.unspent c).mp hc
    obtain ⟨⟨j, hd⟩, -⟩ := (h.unspent d).mp hd
    exact h.consistent.created_once hc hd hk

theorem consistent_creates (txId : Nat) (h : Consistent key Eq moves)
    (hnodup : (outputs.map key).Nodup)
    (hnew : ∀ c ∈ outputs, ∀ i d, .create i d ∈ moves → key d ≠ key c) :
    Consistent key Eq (moves ++ outputs.map (Move.create txId)) := by
  induction outputs using List.reverseRecOn with
  | nil => simpa using h
  | append_singleton outputs last ih =>
      rw [List.map_append, List.nodup_append] at hnodup
      have hinit := ih hnodup.1 fun c hc => hnew c (List.mem_append_left _ hc)
      rw [List.map_append, List.map_singleton, ← List.append_assoc]
      apply hinit.push
      intro i d hd
      rcases List.mem_append.mp hd with hold | hmine
      · exact hnew last (by simp) i d hold
      · obtain ⟨c, hc, heq⟩ := List.mem_map.mp hmine
        cases heq
        exact hnodup.2.2 (key d) (List.mem_map_of_mem hc) (key last) (by simp)

theorem consistent_spends {txId : Nat} (h : Consistent key Eq moves)
    (hnodup : (inputs.map key).Nodup)
    (hthere : ∀ c ∈ inputs, (∃ i, .create i c ∈ moves) ∧ ∀ i d, .spend i d ∈ moves → key d ≠ key c) :
    Consistent key Eq (moves ++ inputs.map (Move.spend txId)) := by
  induction inputs using List.reverseRecOn with
  | nil => simpa using h
  | append_singleton inputs last ih =>
      rw [List.map_append, List.nodup_append] at hnodup
      have hinit := ih hnodup.1 fun c hc => hthere c (List.mem_append_left _ hc)
      obtain ⟨⟨i, hcreate⟩, hunspent⟩ := hthere last (by simp)
      rw [List.map_append, List.map_singleton, ← List.append_assoc]
      apply hinit.push
      refine ⟨?_, i, last, List.mem_append_left _ hcreate, rfl, rfl⟩
      intro j d hd
      rcases List.mem_append.mp hd with hold | hmine
      · exact hunspent j d hold
      · obtain ⟨c, hc, heq⟩ := List.mem_map.mp hmine
        cases heq
        exact hnodup.2.2 (key d) (List.mem_map_of_mem hc) (key last) (by simp)

/-- The moves of one transaction, which creates first, lead on. -/
theorem Leads.batch (h : Leads key moves s) (hbatch : Batched key s outputs inputs s') (txId : Nat) :
    Leads key (moves ++ (outputs.map (Move.create txId) ++ inputs.map (Move.spend txId))) s' := by
  have hnew : ∀ c ∈ outputs, ∀ i d, .create i d ∈ moves → key d ≠ key c := by
    intro c hc i d hd hk
    exact hbatch.outputs_new c hc ((h.seen _).mpr ⟨i, d, hd, hk⟩)
  have hspends : ∀ c ∈ outputs, ∀ i d, .spend i d ∈ moves → key d ≠ key c := by
    intro c hc i d hd hk
    obtain ⟨j, e, he, hek⟩ := h.consistent.created hd
    exact hnew c hc j e he (hek.trans hk)
  have hcreated := consistent_creates txId h.consistent hbatch.outputs_nodup hnew
  refine ⟨?_, ?_, ?_⟩
  · rw [← List.append_assoc]
    apply consistent_spends hcreated hbatch.inputs_nodup
    intro c hc
    rcases hbatch.inputs_mem c hc with hold | hout
    · obtain ⟨⟨i, hcreate⟩, hunspent⟩ := (h.unspent c).mp hold
      refine ⟨⟨i, List.mem_append_left _ hcreate⟩, ?_⟩
      intro j d hd
      rcases List.mem_append.mp hd with hd | hd
      · exact hunspent j d hd
      · obtain ⟨e, -, heq⟩ := List.mem_map.mp hd
        cases heq
    · refine ⟨⟨txId, List.mem_append_right _ (List.mem_map_of_mem hout)⟩, ?_⟩
      intro j d hd
      rcases List.mem_append.mp hd with hd | hd
      · exact hspends c hout j d hd
      · obtain ⟨e, -, heq⟩ := List.mem_map.mp hd
        cases heq
  · intro k
    rw [hbatch.seen, h.seen]
    constructor
    · rintro (⟨i, c, hc, hk⟩ | hk)
      · exact ⟨i, c, List.mem_append_left _ hc, hk⟩
      · obtain ⟨c, hc, rfl⟩ := List.mem_map.mp hk
        exact ⟨txId, c, by simp [hc], rfl⟩
    · rintro ⟨i, c, hc, rfl⟩
      rcases List.mem_append.mp hc with hc | hc
      · exact .inl ⟨i, c, hc, rfl⟩
      · right
        simp only [List.mem_append, List.mem_map, Move.create.injEq, reduceCtorEq, and_false,
          exists_false, or_false] at hc
        obtain ⟨d, hd, -, rfl⟩ := hc
        exact List.mem_map_of_mem hd
  · intro c
    rw [hbatch.unspent, h.unspent]
    simp only [List.mem_append, List.mem_map, Move.create.injEq, Move.spend.injEq, reduceCtorEq,
      and_false, exists_false, or_false, false_or]
    constructor
    · rintro ⟨⟨⟨i, hcreate⟩, hunspent⟩ | hout, hkept⟩
      · refine ⟨⟨i, .inl hcreate⟩, ?_⟩
        rintro j d (hd | ⟨e, he, -, rfl⟩)
        · exact hunspent j d hd
        · intro hk
          have hsame : e = c := by
            rcases hbatch.inputs_mem e he with hold | hnew'
            · exact h.wellKept.injective e hold c ((h.unspent c).mpr ⟨⟨i, hcreate⟩, hunspent⟩) hk
            · exact absurd hk.symm (hnew e hnew' i c hcreate)
          exact hkept (hsame ▸ he)
      · refine ⟨⟨txId, .inr ⟨c, hout, rfl, rfl⟩⟩, ?_⟩
        rintro j d (hd | ⟨e, he, -, rfl⟩)
        · exact hspends c hout j d hd
        · intro hk
          have hsame : e = c := by
            rcases hbatch.inputs_mem e he with hold | hnew'
            · exact absurd (hk ▸ h.wellKept.seen e hold) (hbatch.outputs_new c hout)
            · exact List.inj_on_of_nodup_map hbatch.outputs_nodup hnew' hout hk
          exact hkept (hsame ▸ he)
    · rintro ⟨⟨i, hcreate | ⟨e, he, -, rfl⟩⟩, hunspent⟩
      · refine ⟨.inl ⟨⟨i, hcreate⟩, fun j d hd => hunspent j d (.inl hd)⟩, ?_⟩
        intro hin
        exact hunspent txId c (.inr ⟨c, hin, rfl, rfl⟩) rfl
      · refine ⟨.inr he, ?_⟩
        intro hin
        exact hunspent txId e (.inr ⟨e, hin, rfl, rfl⟩) rfl

end Nightfrost.CoinLedger
