import Nightfrost.Scripts

namespace Nightfrost.Interleaving

open Scripts

variable {S ε α β : Type}

/-- Rely and guarantee: while the others change the store as `R` says, every
write of the program is one that `G` allows, and it ends as `Q` says. -/
def Guards (R G : S → S → Prop) (Q : α → S → Prop) : Script S ε α → S → Prop
  | .done a, s => ∀ s', R s s' → Q a s'
  | .fail _, _ => True
  | .read next, s => ∀ s', R s s' → Guards R G Q (next s') s'
  | .write f next, s => ∀ s', R s s' → G s' (f s') ∧ Guards R G Q next (f s')

variable {R G : S → S → Prop} {Q : α → S → Prop} {s s' : S}

theorem Guards.stable (htrans : ∀ s s' s'', R s s' → R s' s'' → R s s'') {x : Script S ε α}
    (h : Guards R G Q x s) (hs : R s s') : Guards R G Q x s' := by
  cases x with
  | done a => exact fun s'' hs' => h s'' (htrans s s' s'' hs hs')
  | fail e => exact trivial
  | read next => exact fun s'' hs' => h s'' (htrans s s' s'' hs hs')
  | write f next => exact fun s'' hs' => h s'' (htrans s s' s'' hs hs')

theorem guards_pure {a : α} (h : ∀ s', R s s' → Q a s') :
    Guards R G Q (pure a : Script S ε α) s := h

theorem guards_fail (e : ε) : Guards R G Q (.fail e : Script S ε α) s := trivial

theorem guards_bind (hrefl : ∀ s, R s s) {P : β → S → Prop} {x : Script S ε β}
    {f : β → Script S ε α} (hx : Guards R G P x s)
    (hf : ∀ b s', P b s' → Guards R G Q (f b) s') : Guards R G Q (x >>= f) s := by
  induction x generalizing s with
  | done b => exact hf b s (hx s (hrefl s))
  | fail e => exact trivial
  | read next ih => exact fun s' hs => ih s' (hx s' hs)
  | write g next ih => exact fun s' hs => ⟨(hx s' hs).1, ih (hx s' hs).2⟩

theorem guards_look {f : S → β} {g : β → Script S ε α}
    (h : ∀ s', R s s' → Guards R G Q (g (f s')) s') : Guards R G Q (look f >>= g) s := h

theorem guards_ofExcept {x : Except ε α} (h : ∀ a, x = .ok a → ∀ s', R s s' → Q a s') :
    Guards R G Q (ofExcept x) s := by
  cases x with
  | ok a => exact h a rfl
  | error e => exact trivial

theorem guards_foldlM (hrefl : ∀ s, R s s) {σ : Type} {J : List β → σ → S → Prop}
    {f : σ → β → Script S ε σ} {entries : List β} {acc : σ} (h : ∀ s', R s s' → J [] acc s')
    (hstep : ∀ front b acc s, J front acc s → Guards R G (J (front ++ [b])) (f acc b) s)
    (hstable : ∀ front acc s s', J front acc s → R s s' → J front acc s') :
    Guards R G (J entries) (entries.foldlM f acc) s := by
  have general : ∀ (rest front : List β) (acc : σ) (s : S), entries = front ++ rest →
      J front acc s → Guards R G (J entries) (rest.foldlM f acc) s := by
    intro rest
    induction rest with
    | nil =>
        intro front acc s hsplit hj
        rw [List.append_nil] at hsplit
        subst hsplit
        exact fun s' hs => hstable _ _ _ _ hj hs
    | cons b rest ih =>
        intro front acc s hsplit hj
        rw [List.foldlM_cons]
        refine guards_bind hrefl (hstep front b acc s hj) (fun acc' s' hj' => ?_)
        exact ih (front ++ [b]) acc' s' (by rw [hsplit, List.append_assoc]; rfl) hj'
  exact general entries [] acc s rfl (h s (hrefl s))

/-- A program that runs while others change the store: what is left of it and
the store, before and after one step of its own. -/
inductive Advances : Script S ε α → S → Script S ε α → S → Prop
  | read (next : S → Script S ε α) (s : S) : Advances (.read next) s (next s) s
  | write (f : S → S) (next : Script S ε α) (s : S) : Advances (.write f next) s next (f s)

theorem advances_of_run {x : Script S ε α} {a : α} (h : x.run s = (.ok a, s')) :
    Relation.ReflTransGen (fun p q : Script S ε α × S => Advances p.1 p.2 q.1 q.2) (x, s)
      (.done a, s') := by
  induction x generalizing s with
  | done b =>
      obtain ⟨hb, rfl⟩ := Prod.mk.inj h
      obtain rfl := Except.ok.inj hb
      exact .refl
  | fail e => exact nomatch (Prod.mk.inj h).1
  | read next ih => exact .head (.read next s) (ih s h)
  | write f next ih => exact .head (.write f next s) (ih h)

/-- A step of the program is a read, or a write that is allowed, and what is
left of it keeps its guarantee. -/
theorem Guards.advances (hrefl : ∀ s, R s s) {x x' : Script S ε α} (h : Guards R G Q x s)
    (hstep : Advances x s x' s') : (s' = s ∨ G s s') ∧ Guards R G Q x' s' := by
  cases hstep with
  | read next => exact ⟨.inl rfl, h s (hrefl s)⟩
  | write f next =>
      obtain ⟨hg, hrest⟩ := h s (hrefl s)
      exact ⟨.inr hg, hrest⟩

theorem Guards.done (hrefl : ∀ s, R s s) {a : α} (h : Guards R G Q (.done a : Script S ε α) s) :
    Q a s := h s (hrefl s)

end Nightfrost.Interleaving
