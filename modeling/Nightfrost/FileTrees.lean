import Mathlib

namespace Nightfrost.FileTrees

abbrev Path := List String

inductive FileNode
  | dir
  | file (content : List UInt8)
  deriving DecidableEq

abbrev FileTree := Path → Option FileNode

inductive Step
  | mkdir (p : Path)
  | write (p : Path) (node : FileNode)
  | move (src dst : Path)

/-- A move takes everything below its source along. -/
def Step.apply (fs : FileTree) : Step → FileTree
  | .mkdir p => Function.update fs p (some .dir)
  | .write p node => Function.update fs p (some node)
  | .move src dst => fun p =>
      if dst <+: p then fs (src ++ p.drop dst.length) else if src <+: p then none else fs p

def run (fs : FileTree) (steps : List Step) : FileTree := steps.foldl Step.apply fs

/-- A run that was cut off: some steps are done, and the next one may have
written a part of its file. -/
inductive Stopped (fs : FileTree) (steps : List Step) : FileTree → Prop
  | between (done : Nat) : Stopped fs steps (run fs (steps.take done))
  | within (done : Nat) {p : Path} {content written : List UInt8}
      (hstep : steps[done]? = some (.write p (.file content))) (hwritten : written <+: content) :
      Stopped fs steps (Step.apply (run fs (steps.take done)) (.write p (.file written)))

/-- What exists stands in directories. -/
structure Rooted (fs : FileTree) : Prop where
  root : fs [] = some .dir
  parent : ∀ p name, fs (p ++ [name]) ≠ none → fs p = some .dir

def Step.Touches (p : Path) : Step → Prop
  | .mkdir q => q = p
  | .write q _ => q = p
  | .move src dst => src <+: p ∨ dst <+: p

def Step.below (p : Path) : Step → Bool
  | .mkdir q => p <+: q ∧ q ≠ p
  | .write q _ => p <+: q ∧ q ≠ p
  | .move _ dst => p <+: dst ∧ dst ≠ p

/-- A node of which no part is written without the rest. -/
def FileNode.Whole (node : FileNode) : Prop := node = .dir ∨ node = .file []

theorem move_target (fs : FileTree) (src dst rel : Path) :
    (Step.move src dst).apply fs (dst ++ rel) = fs (src ++ rel) := by
  calc (Step.move src dst).apply fs (dst ++ rel)
      = fs (src ++ (dst ++ rel).drop dst.length) := if_pos (List.prefix_append dst rel)
    _ = fs (src ++ rel) := by rw [List.drop_left]

theorem move_source (fs : FileTree) {src dst : Path} (h : ¬ dst <+: src) :
    (Step.move src dst).apply fs src = none :=
  (if_neg h).trans (if_pos List.prefix_rfl)

section Frames

variable {fs fs' : FileTree} {steps : List Step} {p : Path}

theorem Step.apply_frame {step : Step} (h : ¬ step.Touches p) : step.apply fs p = fs p := by
  cases step with
  | mkdir q => exact Function.update_of_ne (Ne.symm h) _ _
  | write q node => exact Function.update_of_ne (Ne.symm h) _ _
  | move src dst =>
      rw [Step.Touches, not_or] at h
      exact (if_neg h.2).trans (if_neg h.1)

theorem run_frame (h : ∀ step ∈ steps, ¬ step.Touches p) : run fs steps p = fs p := by
  induction steps generalizing fs with
  | nil => rfl
  | cons step steps ih =>
      rw [run, List.foldl_cons]
      change run (step.apply fs) steps p = fs p
      rw [ih (fun s hs => h s (List.mem_cons_of_mem _ hs)), Step.apply_frame (h step List.mem_cons_self)]

theorem Stopped.frame (h : Stopped fs steps fs') (hsteps : ∀ step ∈ steps, ¬ step.Touches p) :
    fs' p = fs p := by
  have hdone : ∀ done, run fs (steps.take done) p = fs p :=
    fun done => run_frame fun step hstep => hsteps step (List.mem_of_mem_take hstep)
  cases h with
  | between done => exact hdone done
  | within done hstep hwritten =>
      rename_i q content written
      have hne : ¬ (Step.write q (.file content)).Touches p :=
        hsteps _ (List.mem_of_getElem? hstep)
      have hne' : ¬ (Step.write q (.file written)).Touches p := hne
      rw [Step.apply_frame hne']
      exact hdone done

theorem run_kept {node : FileNode} (hp : fs p = some node)
    (h : ∀ step ∈ steps, ¬ step.Touches p ∨ step = .write p node) : run fs steps p = some node := by
  induction steps generalizing fs with
  | nil => exact hp
  | cons step steps ih =>
      rw [run, List.foldl_cons]
      apply ih
      · rcases h step List.mem_cons_self with hstep | rfl
        · exact (Step.apply_frame hstep).trans hp
        · exact Function.update_self _ _ _
      · intro s hs
        exact h s (List.mem_cons_of_mem _ hs)

theorem Stopped.kept {node : FileNode} (h : Stopped fs steps fs') (hp : fs p = some node)
    (hsteps : ∀ step ∈ steps, ¬ step.Touches p ∨ step = .write p node ∧ node.Whole) : fs' p = some node := by
  have hdone : ∀ done, run fs (steps.take done) p = some node := by
    intro done
    refine run_kept hp fun step hstep => ?_
    exact (hsteps step (List.mem_of_mem_take hstep)).imp_right And.left
  cases h with
  | between done => exact hdone done
  | within done hstep hwritten =>
      rename_i q content written
      rcases hsteps _ (List.mem_of_getElem? hstep) with hq | ⟨heq, hwhole⟩
      · have hq' : ¬ (Step.write q (.file written)).Touches p := hq
        rw [Step.apply_frame hq']
        exact hdone done
      · obtain ⟨rfl, rfl⟩ := Step.write.inj heq
        rcases hwhole with hdir | hempty
        · cases hdir
        · obtain rfl := FileNode.file.inj hempty
          rw [List.prefix_nil.mp hwritten]
          exact Function.update_self _ _ _

theorem Stopped.upto (fs : FileTree) (done rest : List Step) : Stopped fs (done ++ rest) (run fs done) := by
  have h : Stopped fs (done ++ rest) _ := Stopped.between done.length
  rwa [List.take_left] at h

theorem Stopped.part (fs : FileTree) (done rest : List Step) (q : Path) {content written : List UInt8}
    (h : written <+: content) : Stopped fs (done ++ .write q (.file content) :: rest)
      (Step.apply (run fs done) (.write q (.file written))) := by
  have hstep : (done ++ .write q (.file content) :: rest)[done.length]? = some (.write q (.file content)) := by
    rw [List.getElem?_append_right (Nat.le_refl _), Nat.sub_self]
    rfl
  have hstopped : Stopped fs (done ++ .write q (.file content) :: rest) _ :=
    Stopped.within done.length hstep h
  rwa [List.take_left] at hstopped

theorem Stopped.whole (fs : FileTree) (steps : List Step) : Stopped fs steps (run fs steps) := by
  have h : Stopped fs steps _ := Stopped.between steps.length
  rwa [List.take_length] at h

theorem Rooted.below_none (h : Rooted fs) (hp : fs p = none) (rel : Path) : fs (p ++ rel) = none := by
  induction rel using List.reverseRecOn with
  | nil => rwa [List.append_nil]
  | append_singleton rel name ih =>
      by_contra hne
      rw [← List.append_assoc] at hne
      rw [h.parent _ _ hne] at ih
      cases ih

theorem Rooted.above_dir (h : Rooted fs) {rel : Path} {name : String}
    (hp : fs (p ++ rel ++ [name]) ≠ none) : fs p = some .dir := by
  induction rel using List.reverseRecOn generalizing name with
  | nil =>
      rw [List.append_nil] at hp
      exact h.parent _ _ hp
  | append_singleton rel last ih =>
      have hlast : fs (p ++ rel ++ [last]) ≠ none := by
        rw [List.append_assoc, h.parent _ _ hp]
        exact Option.some_ne_none _
      exact ih hlast

end Frames

section Trees

def treeOf (entries : List (Path × FileNode)) : FileTree :=
  run (fun _ => none) (entries.map (fun entry => .write entry.1 entry.2))

/-- Entries written below a directory make their tree there, over what was there. -/
theorem run_writes (entries : List (Path × FileNode)) (base rel : Path) : ∀ fs : FileTree,
    run fs (entries.map (fun entry => .write (base ++ entry.1) entry.2)) (base ++ rel) =
      (treeOf entries rel).or (fs (base ++ rel)) := by
  induction entries using List.reverseRecOn with
  | nil => exact fun fs => rfl
  | append_singleton entries entry ih =>
      intro fs
      have hlast : ∀ (steps : List Step) (step : Step) (fs : FileTree),
          run fs (steps ++ [step]) = step.apply (run fs steps) := fun steps step fs =>
        List.foldl_concat _ _ _ _
      rw [treeOf, List.map_append, List.map_append, List.map_singleton, List.map_singleton, hlast, hlast]
      by_cases hrel : rel = entry.1
      · subst hrel
        simp [Step.apply]
      · have hne : base ++ rel ≠ base ++ entry.1 := fun he => hrel (List.append_cancel_left he)
        rw [Step.apply, Step.apply, Function.update_of_ne hne, Function.update_of_ne hrel]
        exact ih fs

end Trees

end Nightfrost.FileTrees
