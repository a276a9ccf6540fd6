import Mathlib

namespace Nightfrost.MovingStore

variable {S ε α β : Type}

/-- A request as a tree of its reads. Each read sees one snapshot of a store
that others may move on before the next. -/
inductive Reads (S ε α : Type)
  | done (a : α)
  | fail (e : ε)
  | read (next : S → Reads S ε α)

def Reads.bind : Reads S ε α → (α → Reads S ε β) → Reads S ε β
  | .done a, f => f a
  | .fail e, _ => .fail e
  | .read next, f => .read (fun s => (next s).bind f)

instance : Monad (Reads S ε) where
  pure := .done
  bind := Reads.bind

def query (f : S → α) : Reads S ε α := .read (fun s => .done (f s))

def liftExcept : Except ε α → Reads S ε α
  | .ok a => .done a
  | .error e => .fail e

/-- The run of a request from a moment on, with the moment of its next read. -/
def Reads.run : Reads S ε α → (Nat → S) → Nat → Except ε (α × Nat)
  | .done a, _, t => .ok (a, t)
  | .fail e, _, _ => .error e
  | .read next, σ, t => (next (σ t)).run σ (t + 1)

def Reads.at : Reads S ε α → S → Except ε α
  | .done a, _ => .ok a
  | .fail e, _ => .error e
  | .read next, s => (next s).at s

@[simp] theorem run_pure (a : α) (σ : Nat → S) (t : Nat) :
    (pure a : Reads S ε α).run σ t = .ok (a, t) := rfl

@[simp] theorem run_fail (e : ε) (σ : Nat → S) (t : Nat) :
    (.fail e : Reads S ε α).run σ t = .error e := rfl

@[simp] theorem run_query (f : S → α) (σ : Nat → S) (t : Nat) :
    (query f : Reads S ε α).run σ t = .ok (f (σ t), t + 1) := rfl

theorem run_liftExcept {x : Except ε α} {σ : Nat → S} {t t' : Nat} {a : α} :
    (liftExcept x : Reads S ε α).run σ t = .ok (a, t') ↔ x = .ok a ∧ t' = t := by
  cases x with
  | ok b => simp [liftExcept, Reads.run, eq_comm]
  | error e => simp [liftExcept]

theorem run_bind (x : Reads S ε α) (f : α → Reads S ε β) (σ : Nat → S) (t : Nat) :
    (x >>= f).run σ t = match x.run σ t with
      | .ok (a, t') => (f a).run σ t'
      | .error e => .error e := by
  induction x generalizing t with
  | done a => rfl
  | fail e => rfl
  | read next ih => exact ih (σ t) (t + 1)

theorem run_bind_ok {x : Reads S ε α} {f : α → Reads S ε β} {σ : Nat → S} {t t' : Nat} {b : β} :
    (x >>= f).run σ t = .ok (b, t') ↔
      ∃ a t₁, x.run σ t = .ok (a, t₁) ∧ (f a).run σ t₁ = .ok (b, t') := by
  rw [run_bind]
  cases x.run σ t with
  | error e => simp
  | ok r => obtain ⟨a, t₁⟩ := r; simp

theorem run_le {x : Reads S ε α} {σ : Nat → S} {t t' : Nat} {a : α} (h : x.run σ t = .ok (a, t')) :
    t ≤ t' := by
  induction x generalizing t with
  | done b => cases h; exact Nat.le_refl _
  | fail e => cases h
  | read next ih => exact Nat.le_of_succ_le (ih (σ t) h)

@[simp] theorem at_pure (a : α) (s : S) : (pure a : Reads S ε α).at s = .ok a := rfl

@[simp] theorem at_fail (e : ε) (s : S) : (.fail e : Reads S ε α).at s = .error e := rfl

@[simp] theorem at_query (f : S → α) (s : S) : (query f : Reads S ε α).at s = .ok (f s) := rfl

@[simp] theorem at_liftExcept (x : Except ε α) (s : S) : (liftExcept x : Reads S ε α).at s = x := by
  cases x <;> rfl

theorem at_bind (x : Reads S ε α) (f : α → Reads S ε β) (s : S) :
    (x >>= f).at s = x.at s >>= fun a => (f a).at s := by
  induction x with
  | done a => rfl
  | fail e => rfl
  | read next ih => exact ih s

theorem at_query_bind (f : S → α) (g : α → Reads S ε β) (s : S) :
    (query f >>= g).at s = (g (f s)).at s := by
  rw [at_bind, at_query]
  rfl

theorem run_const (x : Reads S ε α) (s : S) (t : Nat) :
    (x.run (fun _ => s) t).map Prod.fst = x.at s := by
  induction x generalizing t with
  | done a => rfl
  | fail e => rfl
  | read next ih => exact ih s (t + 1)

def collect (f : α → Reads S ε β) : List α → Reads S ε (List β)
  | [] => pure []
  | a :: rest => do
      let b ← f a
      let bs ← collect f rest
      pure (b :: bs)

/-- From a moment on, a request fails at most in the ways that a predicate allows. -/
def FailsIn (allowed : ε → Prop) (x : Reads S ε α) (σ : Nat → S) (t : Nat) : Prop :=
  ∀ e, x.run σ t = .error e → allowed e

section FailsIn

variable {allowed : ε → Prop} {σ : Nat → S} {t : Nat}

theorem failsIn_pure (a : α) : FailsIn allowed (pure a : Reads S ε α) σ t := by
  intro e h
  cases h

theorem failsIn_fail {e : ε} (h : allowed e) : FailsIn allowed (.fail e : Reads S ε α) σ t := by
  intro e' h'
  obtain rfl := Except.error.inj h'
  exact h

theorem failsIn_of_ok {x : Reads S ε α} {r : α × Nat} (h : x.run σ t = .ok r) :
    FailsIn allowed x σ t := by
  intro e he
  rw [h] at he
  cases he

theorem failsIn_liftExcept {x : Except ε α} (h : ∀ e, x = .error e → allowed e) :
    FailsIn allowed (liftExcept x : Reads S ε α) σ t := by
  cases x with
  | ok a => exact failsIn_pure a
  | error e => exact failsIn_fail (h e rfl)

theorem failsIn_bind {x : Reads S ε α} {f : α → Reads S ε β} (hx : FailsIn allowed x σ t)
    (hf : ∀ a t', t ≤ t' → x.run σ t = .ok (a, t') → FailsIn allowed (f a) σ t') :
    FailsIn allowed (x >>= f) σ t := by
  intro e h
  rw [run_bind] at h
  cases hrun : x.run σ t with
  | error e' =>
      rw [hrun] at h
      obtain rfl := Except.error.inj h
      exact hx e' hrun
  | ok r =>
      obtain ⟨a, t'⟩ := r
      rw [hrun] at h
      exact hf a t' (run_le hrun) hrun e h

theorem failsIn_query {f : S → α} {g : α → Reads S ε β}
    (h : FailsIn allowed (g (f (σ t))) σ (t + 1)) : FailsIn allowed (query f >>= g) σ t := h

theorem failsIn_collect {f : α → Reads S ε β} {as : List α}
    (h : ∀ a ∈ as, ∀ t', t ≤ t' → FailsIn allowed (f a) σ t') {t' : Nat} (hle : t ≤ t') :
    FailsIn allowed (collect f as) σ t' := by
  induction as generalizing t' with
  | nil => exact failsIn_pure _
  | cons a rest ih =>
      have hrest : ∀ a ∈ rest, ∀ t', t ≤ t' → FailsIn allowed (f a) σ t' :=
        fun a ha => h a (List.mem_cons_of_mem _ ha)
      refine failsIn_bind (h a List.mem_cons_self t' hle) (fun b t₁ hle₁ _ => ?_)
      refine failsIn_bind (ih hrest (hle.trans hle₁)) (fun bs t₂ _ _ => ?_)
      exact failsIn_pure _

end FailsIn

end Nightfrost.MovingStore
