import Mathlib

namespace Nightfrost.Scripts

variable {S ε α β : Type}

/-- A program as a tree of its reads and its durable writes. It can be cut off
between any two of them. -/
inductive Script (S ε α : Type)
  | done (a : α)
  | fail (e : ε)
  | read (next : S → Script S ε α)
  | write (f : S → S) (next : Script S ε α)

def Script.bind : Script S ε α → (α → Script S ε β) → Script S ε β
  | .done a, f => f a
  | .fail e, _ => .fail e
  | .read next, f => .read (fun s => (next s).bind f)
  | .write g next, f => .write g (next.bind f)

instance : Monad (Script S ε) where
  pure := .done
  bind := Script.bind

def look (f : S → α) : Script S ε α := .read (fun s => .done (f s))

def change (f : S → S) : Script S ε Unit := .write f (.done ())

def ofExcept : Except ε α → Script S ε α
  | .ok a => .done a
  | .error e => .fail e

def collect (f : α → Script S ε β) : List α → Script S ε (List β)
  | [] => pure []
  | a :: rest => do
      let b ← f a
      let bs ← collect f rest
      pure (b :: bs)

def Script.run : Script S ε α → S → Except ε α × S
  | .done a, s => (.ok a, s)
  | .fail e, s => (.error e, s)
  | .read next, s => (next s).run s
  | .write f next, s => next.run (f s)

theorem run_bind (x : Script S ε β) (f : β → Script S ε α) (s : S) :
    (x >>= f).run s =
      match x.run s with
      | (.ok b, s') => (f b).run s'
      | (.error e, s') => (.error e, s') := by
  induction x generalizing s with
  | done b => rfl
  | fail e => rfl
  | read next ih => exact ih s s
  | write g next ih => exact ih (g s)

theorem run_look (f : S → α) (s : S) : (look f : Script S ε α).run s = (.ok (f s), s) := rfl

theorem run_ofExcept (x : Except ε α) (s : S) : (ofExcept x : Script S ε α).run s = (x, s) := by
  cases x <;> rfl

/-- What a run that is cut off somewhere leaves in the store. -/
inductive Leaves : Script S ε α → S → S → Prop
  | cut {x : Script S ε α} {s : S} : Leaves x s s
  | read {next : S → Script S ε α} {s s' : S} (h : Leaves (next s) s s') : Leaves (.read next) s s'
  | write {f : S → S} {next : Script S ε α} {s s' : S} (h : Leaves next (f s) s') :
      Leaves (.write f next) s s'

theorem leaves_run (x : Script S ε α) (s : S) : Leaves x s (x.run s).2 := by
  induction x generalizing s with
  | done a => exact .cut
  | fail e => exact .cut
  | read next ih => exact .read (ih s s)
  | write f next ih => exact .write (ih (f s))

/-- What any number of runs that were cut off leave, each started on what the
one before left. -/
inductive Attempts (x : Script S ε α) (s : S) : S → Prop
  | start : Attempts x s s
  | again {s' s'' : S} (h : Attempts x s s') (hcut : Leaves x s' s'') : Attempts x s s''

def Completes (x : Script S ε α) (s : S) (a : α) (s' : S) : Prop :=
  ∃ t, Attempts x s t ∧ x.run t = (.ok a, s')

/-- From a store on, the program keeps an invariant at every point, fails only as
`E` says and ends as `Q` says. -/
def Keeps (I : S → Prop) (E : ε → Prop) (Q : α → S → Prop) : Script S ε α → S → Prop
  | .done a, s => I s ∧ Q a s
  | .fail e, s => I s ∧ E e
  | .read next, s => I s ∧ Keeps I E Q (next s) s
  | .write f next, s => I s ∧ Keeps I E Q next (f s)

variable {I : S → Prop} {E : ε → Prop} {Q : α → S → Prop} {s s' : S}

theorem Keeps.here {x : Script S ε α} (h : Keeps I E Q x s) : I s := by
  cases x <;> exact h.1

theorem keeps_pure {a : α} (hi : I s) (hq : Q a s) : Keeps I E Q (pure a) s := ⟨hi, hq⟩

theorem keeps_fail {e : ε} (hi : I s) (he : E e) : Keeps I E Q (.fail e) s := ⟨hi, he⟩

theorem keeps_bind {R : β → S → Prop} {x : Script S ε β} {f : β → Script S ε α}
    (hx : Keeps I E R x s) (hf : ∀ b s', I s' → R b s' → Keeps I E Q (f b) s') :
    Keeps I E Q (x >>= f) s := by
  induction x generalizing s with
  | done b => exact hf b s hx.1 hx.2
  | fail e => exact hx
  | read next ih => exact ⟨hx.1, ih s hx.2⟩
  | write g next ih => exact ⟨hx.1, ih hx.2⟩

theorem keeps_look {f : S → β} {g : β → Script S ε α} (hi : I s) (h : Keeps I E Q (g (f s)) s) :
    Keeps I E Q (look f >>= g) s := ⟨hi, h⟩

theorem keeps_change {f : S → S} {g : Unit → Script S ε α} (hi : I s)
    (h : Keeps I E Q (g ()) (f s)) : Keeps I E Q (change f >>= g) s := ⟨hi, h⟩

theorem keeps_ok {b : β} {g : β → Script S ε α} (h : Keeps I E Q (g b) s) :
    Keeps I E Q (ofExcept (.ok b) >>= g) s := h

theorem keeps_ofExcept {x : Except ε β} {g : β → Script S ε α} (hi : I s)
    (hok : ∀ b, x = .ok b → Keeps I E Q (g b) s) (herror : ∀ e, x = .error e → E e) :
    Keeps I E Q (ofExcept x >>= g) s := by
  cases x with
  | ok b => exact hok b rfl
  | error e => exact ⟨hi, herror e rfl⟩

theorem keeps_collect {f : α → Script S ε β} {value : α → Option β} {as : List α} (hi : I s)
    (h : ∀ a ∈ as, Keeps I E (fun b s' => value a = some b ∧ s' = s) (f a) s) :
    Keeps I E (fun bs s' => bs = as.filterMap value ∧ s' = s) (collect f as) s := by
  induction as with
  | nil => exact keeps_pure hi ⟨rfl, rfl⟩
  | cons a rest ih =>
      have hrest := ih (fun a ha => h a (List.mem_cons_of_mem _ ha))
      apply keeps_bind (h a List.mem_cons_self)
      rintro b s' hi' ⟨hb, rfl⟩
      apply keeps_bind hrest
      rintro bs s'' hi'' ⟨rfl, rfl⟩
      exact keeps_pure hi'' ⟨(List.filterMap_cons_some hb).symm, rfl⟩

theorem Keeps.mono {I' : S → Prop} {E' : ε → Prop} {Q' : α → S → Prop} {x : Script S ε α}
    (h : Keeps I E Q x s) (hi : ∀ s, I s → I' s) (he : ∀ e, E e → E' e)
    (hq : ∀ a s, Q a s → Q' a s) : Keeps I' E' Q' x s := by
  induction x generalizing s with
  | done a => exact ⟨hi s h.1, hq a s h.2⟩
  | fail e => exact ⟨hi s h.1, he e h.2⟩
  | read next ih => exact ⟨hi s h.1, ih s h.2⟩
  | write f next ih => exact ⟨hi s h.1, ih h.2⟩

theorem keeps_foldlM {σ : Type} {J : List β → σ → S → Prop} {f : σ → β → Script S ε σ}
    {entries : List β} {acc : σ} (hi : I s) (h : J [] acc s)
    (hstep : ∀ front b rest acc s, entries = front ++ b :: rest → I s → J front acc s →
      Keeps I E (J (front ++ [b])) (f acc b) s) :
    Keeps I E (J entries) (entries.foldlM f acc) s := by
  have general : ∀ (rest front : List β) (acc : σ) (s : S), entries = front ++ rest → I s →
      J front acc s → Keeps I E (J entries) (rest.foldlM f acc) s := by
    intro rest
    induction rest with
    | nil =>
        intro front acc s hsplit hi hj
        rw [List.append_nil] at hsplit
        subst hsplit
        exact ⟨hi, hj⟩
    | cons b rest ih =>
        intro front acc s hsplit hi hj
        rw [List.foldlM_cons]
        refine keeps_bind (hstep front b rest acc s hsplit hi hj) (fun acc' s' hi' hj' => ?_)
        exact ih (front ++ [b]) acc' s' (by rw [hsplit, List.append_assoc]; rfl) hi' hj'
  exact general entries [] acc s rfl hi h

theorem foldlM_skip {σ : Type} {f : σ → β → Script S ε σ} {acc : σ} {front : List β}
    (h : ∀ b ∈ front, f acc b = pure acc) (rest : List β) :
    (front ++ rest).foldlM f acc = rest.foldlM f acc := by
  induction front with
  | nil => rfl
  | cons b front ih =>
      rw [List.cons_append, List.foldlM_cons, h b List.mem_cons_self]
      exact ih fun b hb => h b (List.mem_cons_of_mem _ hb)

theorem Keeps.leaves {x : Script S ε α} (h : Keeps I E Q x s) (hcut : Leaves x s s') : I s' := by
  induction hcut with
  | cut => exact h.here
  | read _ ih => exact ih h.2
  | write _ ih => exact ih h.2

theorem Keeps.run {x : Script S ε α} (h : Keeps I E Q x s) :
    match x.run s with
    | (.ok a, s') => I s' ∧ Q a s'
    | (.error e, s') => I s' ∧ E e := by
  induction x generalizing s with
  | done a => exact h
  | fail e => exact h
  | read next ih => exact ih s h.2
  | write f next ih => exact ih h.2

theorem Keeps.run_ok {x : Script S ε α} (h : Keeps I E Q x s) {a : α}
    (hrun : x.run s = (.ok a, s')) : I s' ∧ Q a s' := by
  have := h.run
  rw [hrun] at this
  exact this

theorem Keeps.run_error {x : Script S ε α} (h : Keeps I E Q x s) {e : ε}
    (hrun : x.run s = (.error e, s')) : I s' ∧ E e := by
  have := h.run
  rw [hrun] at this
  exact this

section Attempts

variable {x : Script S ε α} {R : S → α → S → Prop}

/-- Where every start from the invariant keeps it, so do all attempts. -/
theorem attempts_keep (h : ∀ s, I s → Keeps I E (R s) x s) (hi : I s) (hs : Attempts x s s') : I s' := by
  induction hs with
  | start => exact hi
  | again _ hcut ih => exact (h _ ih).leaves hcut

theorem completes_keep (h : ∀ s, I s → Keeps I E (R s) x s) (hi : I s) {a : α}
    (hs : Completes x s a s') : ∃ t, I t ∧ I s' ∧ R t a s' := by
  obtain ⟨t, hattempts, hrun⟩ := hs
  have ht := attempts_keep h hi hattempts
  exact ⟨t, ht, (h t ht).run_ok hrun⟩

end Attempts

end Nightfrost.Scripts
