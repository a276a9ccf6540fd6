import Mathlib

namespace Nightfrost.ExceptFold

variable {ε α σ τ : Type}

theorem bind_ok {x : Except ε α} {f : α → Except ε τ} {b : τ} :
    (x >>= f) = .ok b ↔ ∃ a, x = .ok a ∧ f a = .ok b := by
  cases x <;> simp [bind, Except.bind]

theorem bind_error {x : Except ε α} {f : α → Except ε τ} {e : ε} :
    (x >>= f) = .error e ↔ x = .error e ∨ ∃ a, x = .ok a ∧ f a = .error e := by
  cases x <;> simp [bind, Except.bind]

theorem mapM_length {f : α → Except ε τ} {xs : List α} {ys : List τ} (h : xs.mapM f = .ok ys) :
    ys.length = xs.length := by
  induction xs generalizing ys with
  | nil =>
      obtain rfl := Except.ok.inj h
      rfl
  | cons x xs ih =>
      rw [List.mapM_cons] at h
      obtain ⟨y, -, h⟩ := bind_ok.mp h
      obtain ⟨rest, hrest, h⟩ := bind_ok.mp h
      obtain rfl := Except.ok.inj h
      rw [List.length_cons, List.length_cons, ih hrest]

theorem forall₂_mem {R : α → τ → Prop} {xs : List α} {ys : List τ} (h : List.Forall₂ R xs ys) {x : α}
    (hx : x ∈ xs) : ∃ y ∈ ys, R x y := by
  induction h with
  | nil => cases hx
  | cons hxy _ ih =>
      rcases List.mem_cons.mp hx with rfl | hx
      · exact ⟨_, List.mem_cons_self, hxy⟩
      · obtain ⟨y, hy, hR⟩ := ih hx
        exact ⟨y, List.mem_cons_of_mem _ hy, hR⟩

theorem exists_ok {x : Except ε α} (h : x.toBool = true) : ∃ a, x = .ok a := by
  cases x with
  | ok a => exact ⟨a, rfl⟩
  | error e => cases h

theorem ok_of_toBool {x : Except ε α} (h : x.toBool = true) (a : α) :
    x = .ok (x.toOption.getD a) := by
  obtain ⟨b, rfl⟩ := exists_ok h
  rfl

theorem foldlM_cons_ok {step : σ → α → Except ε σ} {x : α} {xs : List α} {st st' : σ} :
    (x :: xs).foldlM step st = .ok st' ↔
      ∃ st₁, step st x = .ok st₁ ∧ xs.foldlM step st₁ = .ok st' := by
  rw [List.foldlM_cons, bind_ok]

theorem foldlM_nil_ok {step : σ → α → Except ε σ} {st st' : σ} :
    [].foldlM step st = .ok st' ↔ st = st' := by
  simp [pure, Except.pure]

/-- The run rule of a fallible loop: what one pass preserves, a successful run
of the loop preserves. -/
theorem foldlM_invariant {step : σ → α → Except ε σ} {I : σ → Prop} {xs : List α} {st st' : σ}
    (hrun : xs.foldlM step st = .ok st') (hstart : I st)
    (hstep : ∀ x ∈ xs, ∀ a b, I a → step a x = .ok b → I b) : I st' := by
  induction xs generalizing st with
  | nil => rwa [← foldlM_nil_ok.mp hrun]
  | cons x xs ih =>
      obtain ⟨st₁, hx, hxs⟩ := foldlM_cons_ok.mp hrun
      exact ih hxs (hstep x List.mem_cons_self st st₁ hstart hx)
        (fun y hy => hstep y (List.mem_cons_of_mem _ hy))

theorem foldlM_split {step : σ → α → Except ε σ} {I : List α → σ → Prop} {xs : List α} {st st' : σ}
    (hrun : xs.foldlM step st = .ok st') (hstart : I [] st)
    (hstep : ∀ done x rest a b, xs = done ++ x :: rest → I done a → step a x = .ok b →
      I (done ++ [x]) b) : I xs st' := by
  have general : ∀ (todo done : List α) (a : σ), xs = done ++ todo → I done a →
      todo.foldlM step a = .ok st' → I xs st' := by
    intro todo
    induction todo with
    | nil =>
        intro done a hcut hI h
        rw [hcut, List.append_nil, ← foldlM_nil_ok.mp h]
        exact hI
    | cons x todo ih =>
        intro done a hcut hI h
        obtain ⟨a₁, hx, hrest⟩ := foldlM_cons_ok.mp h
        refine ih (done ++ [x]) a₁ ?_ (hstep done x todo a a₁ hcut hI hx) hrest
        rw [hcut, List.append_assoc, List.singleton_append]
  exact general xs [] st rfl hstart hrun

theorem foldlM_induct {step : σ → α → Except ε σ} {I : List α → σ → Prop} {xs : List α} {st st' : σ}
    (hrun : xs.foldlM step st = .ok st') (hstart : I [] st)
    (hstep : ∀ done x a b, x ∈ xs → I done a → step a x = .ok b → I (done ++ [x]) b) : I xs st' := by
  apply foldlM_split hrun hstart
  intro done x rest a b hcut hI hx
  refine hstep done x a b ?_ hI hx
  rw [hcut]
  exact List.mem_append_right _ List.mem_cons_self

theorem foldl_split {step : σ → α → σ} {I : List α → σ → Prop} {xs : List α} {st st' : σ}
    (hrun : xs.foldl step st = st') (hstart : I [] st)
    (hstep : ∀ done x rest a, xs = done ++ x :: rest → I done a → I (done ++ [x]) (step a x)) : I xs st' := by
  have hpure : xs.foldlM (fun a x => (.ok (step a x) : Except Unit σ)) st = .ok st' := by
    rw [← hrun]
    exact List.foldlM_pure
  apply foldlM_split hpure hstart
  intro done x rest a b hcut hI hx
  obtain rfl := Except.ok.inj hx
  exact hstep done x rest a hcut hI

theorem push_eq_cut {xs done rest : List α} {x y : α} : xs ++ [y] = done ++ x :: rest ↔
    (rest = [] ∧ xs = done ∧ y = x) ∨ ∃ front, rest = front ++ [y] ∧ xs = done ++ x :: front := by
  constructor
  · intro h
    rcases List.eq_nil_or_concat rest with rfl | ⟨front, z, rfl⟩
    · obtain ⟨hxs, hy⟩ := List.append_inj' h rfl
      exact .inl ⟨rfl, hxs, List.singleton_injective hy⟩
    · rw [List.concat_eq_append, ← List.cons_append, ← List.append_assoc] at h
      obtain ⟨hxs, hy⟩ := List.append_inj' h rfl
      obtain rfl := List.singleton_injective hy
      exact .inr ⟨front, List.concat_eq_append, hxs⟩
  · rintro (⟨rfl, rfl, rfl⟩ | ⟨front, rfl, rfl⟩)
    · rfl
    · simp

theorem foldlM_ok_iff {step : σ → α → Except ε σ} {I : List α → σ → Prop} {P : List α → α → Prop}
    {st : σ} (hstart : I [] st)
    (hok : ∀ done x a, I done a → ((∃ b, step a x = .ok b) ↔ P done x))
    (hkeep : ∀ done x a b, I done a → step a x = .ok b → I (done ++ [x]) b) (xs : List α) :
    (∃ st', xs.foldlM step st = .ok st') ↔ ∀ done x rest, xs = done ++ x :: rest → P done x := by
  induction xs using List.reverseRecOn with
  | nil =>
      refine ⟨fun _ done x rest h => ?_, fun _ => ⟨st, rfl⟩⟩
      simp at h
  | append_singleton xs y ih =>
      have hlast (st' : σ) : (xs ++ [y]).foldlM step st = .ok st' ↔
          ∃ a, xs.foldlM step st = .ok a ∧ step a y = .ok st' := by
        rw [List.foldlM_append, bind_ok]
        simp only [foldlM_cons_ok, foldlM_nil_ok, exists_eq_right]
      have hinv {a : σ} (h : xs.foldlM step st = .ok a) : I xs a :=
        foldlM_induct h hstart (fun done x a b _ => hkeep done x a b)
      constructor
      · rintro ⟨st', h⟩ done x rest hcut
        obtain ⟨a, hrun, hone⟩ := (hlast st').mp h
        rcases push_eq_cut.mp hcut with ⟨-, rfl, rfl⟩ | ⟨front, -, hfront⟩
        · exact (hok xs y a (hinv hrun)).mp ⟨st', hone⟩
        · exact ih.mp ⟨a, hrun⟩ done x front hfront
      · intro hall
        obtain ⟨a, hrun⟩ := ih.mpr fun done x rest hcut => hall done x (rest ++ [y]) (by simp [hcut])
        obtain ⟨st', hone⟩ := (hok xs y a (hinv hrun)).mpr (hall xs y [] rfl)
        exact ⟨st', (hlast st').mpr ⟨a, hrun, hone⟩⟩

theorem foldlM_frame {step : σ → α → Except ε σ} {f : σ → τ} {xs : List α} {st st' : σ}
    (hrun : xs.foldlM step st = .ok st')
    (hstep : ∀ x ∈ xs, ∀ a b, step a x = .ok b → f b = f a) : f st' = f st :=
  foldlM_invariant (I := fun a => f a = f st) hrun rfl
    (fun x hx a b ha hb => (hstep x hx a b hb).trans ha)

theorem foldl_invariant {step : σ → α → σ} {I : σ → Prop} {xs : List α} {st st' : σ}
    (hrun : xs.foldl step st = st') (hstart : I st) (hstep : ∀ x ∈ xs, ∀ a, I a → I (step a x)) : I st' := by
  refine foldl_split (I := fun _ => I) hrun hstart ?_
  intro done x rest a hcut hI
  refine hstep x ?_ a hI
  rw [hcut]
  exact List.mem_append_right _ List.mem_cons_self

theorem foldl_frame {step : σ → α → σ} {f : σ → τ} (hstep : ∀ a x, f (step a x) = f a)
    (xs : List α) (st : σ) : f (xs.foldl step st) = f st := by
  induction xs generalizing st with
  | nil => rfl
  | cons x xs ih => rw [List.foldl_cons, ih, hstep]

theorem foldlM_agree {step step' : σ → α → Except ε σ}
    (hstep : ∀ x a b b', step a x = .ok b → step' a x = .ok b' → b' = b) {xs : List α} {st b b' : σ}
    (h : xs.foldlM step st = .ok b) (h' : xs.foldlM step' st = .ok b') : b' = b := by
  induction xs generalizing st with
  | nil => rw [← foldlM_nil_ok.mp h, ← foldlM_nil_ok.mp h']
  | cons x xs ih =>
      obtain ⟨a, hx, hrest⟩ := foldlM_cons_ok.mp h
      obtain ⟨a', hx', hrest'⟩ := foldlM_cons_ok.mp h'
      obtain rfl := hstep x st a a' hx hx'
      exact ih hrest hrest'

theorem foldlM_mono {step step' : σ → α → Except ε σ}
    (hstep : ∀ x a b, step a x = .ok b → step' a x = .ok b) {xs : List α} {st b : σ}
    (h : xs.foldlM step st = .ok b) : xs.foldlM step' st = .ok b := by
  induction xs generalizing st with
  | nil => exact h
  | cons x xs ih =>
      obtain ⟨a, hx, hrest⟩ := foldlM_cons_ok.mp h
      exact foldlM_cons_ok.mpr ⟨a, hstep x st a hx, ih hrest⟩

end Nightfrost.ExceptFold
