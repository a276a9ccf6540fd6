import Nightfrost.FileTrees
import Nightfrost.ByteOrder

namespace Nightfrost.Snapshot

open FileTrees

def IsName (name : String) : Prop := name ≠ "" ∧ name ≠ "." ∧ name ≠ ".." ∧ '/' ∉ name.toList

/-- An archive as `save` writes it: everything under one directory, which comes
first. -/
structure Archive where
  top : String
  members : List (Path × FileNode)
  top_name : IsName top
  below : ∀ entry ∈ members, entry.1 ≠ []

def Archive.entries (archive : Archive) : List (Path × FileNode) := ([], .dir) :: archive.members

/-- The tar program, by what it lists of an archive. The names in a listing may
be quoted, so the first need not be the name that is extracted. -/
structure Tar where
  list : Archive → Except String String

/-- The first of `str::lines`, whose end may be a carriage return and a newline. -/
def firstLine (text : String) : Option String :=
  if text = "" then none
  else
    let line := text.toList.takeWhile (fun c => c ≠ '\n')
    if line.length < text.toList.length ∧ line.getLast? = some '\r' then some (String.ofList line.dropLast)
    else some (String.ofList line)

def topNameOf (listing : String) : Except String String :=
  match firstLine listing with
  | none => .error "snapshot archive is empty"
  | some firstEntry =>
      let name := String.ofList (firstEntry.toList.takeWhile (fun c => c ≠ '/'))
      if name ≠ "" then .ok name else .error s!"malformed tar entry {firstEntry}"

def listedName (tar : Tar) (archive : Archive) : Except String String :=
  tar.list archive >>= topNameOf

def display (p : Path) : String := "/" ++ "/".intercalate p

/-- The directories of `create_dir_all`, unless a file is in their way. -/
def createDirAll (fs : FileTree) (p : Path) : Except String (List Step) :=
  if p.inits.any (fun q => (fs q).any (fun node => node ≠ .dir)) then .error s!"create {display p}"
  else .ok ((p.inits.filter (fun q => fs q = none)).map Step.mkdir)

def freshDataDir (fs : FileTree) (dataDir : Path) : Except String (List Step) :=
  if (fs dataDir).isSome then
    .error s!"data dir {display dataDir} already exists; restore only into a fresh directory"
  else createDirAll fs dataDir.dropLast

def extraction (parent : Path) (archive : Archive) : List Step :=
  archive.entries.map (fun entry => .write (parent ++ [archive.top] ++ entry.1) entry.2)

/-- What `rename` asks for: a source, and no target unless it is an empty
directory in the place of a directory. What is in the target, the steps made. -/
def renames (fs : FileTree) (made : List Step) (src dst : Path) : Bool :=
  (run fs made src).isSome && (run fs made dst = none ||
    run fs made src = some .dir && run fs made dst = some .dir && made.all (fun step => !step.below dst))

/-- The move of the extracted directory. A data directory that is given as a bare
name differs from the extracted one, whose path starts with `.`, even where both
are the same; their rename does nothing, if they are there. -/
def moveInto (bare : Bool) (fs : FileTree) (made : List Step) (extracted dataDir : Path) :
    List Step × Except String Unit :=
  if extracted = dataDir then
    if bare = true ∧ run fs made extracted = none then
      (made, .error s!"move {display extracted} to {display dataDir}")
    else (made, .ok ())
  else if renames fs made extracted dataDir then (made ++ [.move extracted dataDir], .ok ())
  else (made, .error s!"move {display extracted} to {display dataDir}")

def restore (tar : Tar) (bare : Bool) (fs : FileTree) (archive : Archive) (dataDir : Path) :
    List Step × Except String Unit :=
  match freshDataDir fs dataDir with
  | .error e => ([], .error e)
  | .ok made =>
      match listedName tar archive with
      | .error e => (made, .error e)
      | .ok topName =>
          -- no tree has an entry `.` or `..`, and `rename` takes neither
          moveInto bare fs (made ++ extraction dataDir.dropLast archive) (dataDir.dropLast ++ [topName]) dataDir

/-- A success makes the data directory the archived tree, and nothing that was
there before is lost or changed, wherever the restore stops. -/
structure Safe (tar : Tar) (bare : Bool) (fs : FileTree) (archive : Archive) (dataDir : Path) : Prop where
  restored : (restore tar bare fs archive dataDir).2 = .ok () → ∀ rel,
    run fs (restore tar bare fs archive dataDir).1 (dataDir ++ rel) = treeOf archive.entries rel
  kept : ∀ fs', Stopped fs (restore tar bare fs archive dataDir).1 fs' → ∀ p, fs p ≠ none → fs' p = fs p

/-- What the entries of an archive find in their places, they leave as it is. -/
def Unharmed (fs : FileTree) (parent : Path) (archive : Archive) : Prop :=
  ∀ entry ∈ archive.entries, ∀ node, fs (parent ++ [archive.top] ++ entry.1) = some node →
    entry.2 = node ∧ node.Whole

/-- The extraction makes a data directory that what stands under the listed name
cannot replace. -/
def Blocked (fs : FileTree) (archive : Archive) (dataDir : Path) (listed : String) : Prop :=
  dataDir = dataDir.dropLast ++ [archive.top] ∧
    (archive.members ≠ [] ∨ fs (dataDir.dropLast ++ [listed]) ≠ some .dir)

/-- Nothing that exists is in the way of the extraction, nor under the name that
tar lists, from where the result is moved. -/
def Clear (bare : Bool) (fs : FileTree) (archive : Archive) (dataDir : Path) (listed : String) : Prop :=
  if listed = archive.top then fs (dataDir.dropLast ++ [archive.top]) = none
  else (dataDir = dataDir.dropLast ++ [listed] → bare = true) ∧ Unharmed fs dataDir.dropLast archive ∧
    (fs (dataDir.dropLast ++ [listed]) = none ∨ Blocked fs archive dataDir listed)

section Extraction

variable {tar : Tar} {bare : Bool} {fs fs' : FileTree} {archive : Archive} {dataDir parent : Path} {name listed : String}
  {made : List Step}

theorem createDirAll_mkdir (h : createDirAll fs parent = .ok made) {step : Step}
    (hstep : step ∈ made) : ∃ q, step = .mkdir q ∧ q <+: parent ∧ fs q = none := by
  rw [createDirAll] at h
  split at h
  · cases h
  · obtain rfl := Except.ok.inj h
    obtain ⟨q, hq, rfl⟩ := List.mem_map.mp hstep
    obtain ⟨hinit, hnone⟩ := List.mem_filter.mp hq
    exact ⟨q, rfl, List.mem_inits _ _ |>.mp hinit, of_decide_eq_true hnone⟩

theorem createDirAll_of_exists (hfs : Rooted fs) (h : fs (parent ++ [name]) ≠ none) :
    createDirAll fs parent = .ok [] := by
  have hdirs : ∀ q ∈ parent.inits, fs q = some .dir := by
    intro q hq
    obtain ⟨rel, rfl⟩ := (List.mem_inits _ _).mp hq
    exact hfs.above_dir h
  have hfiles : parent.inits.any (fun q => (fs q).any (fun node => node ≠ .dir)) = false := by
    rw [List.any_eq_false]
    intro q hq
    rw [hdirs q hq]
    simp
  have hnone : parent.inits.filter (fun q => fs q = none) = [] := by
    rw [List.filter_eq_nil_iff]
    intro q hq
    rw [hdirs q hq]
    simp
  rw [createDirAll, if_neg (by rw [hfiles]; decide), hnone]
  rfl

theorem run_append (fs : FileTree) (steps steps' : List Step) :
    run fs (steps ++ steps') = run (run fs steps) steps' := List.foldl_append

theorem mem_extraction {step : Step} (h : step ∈ extraction parent archive) :
    ∃ entry ∈ archive.entries, step = .write (parent ++ [archive.top] ++ entry.1) entry.2 := by
  obtain ⟨entry, hentry, rfl⟩ := List.mem_map.mp h
  exact ⟨entry, hentry, rfl⟩

theorem run_made (h : createDirAll fs parent = .ok made) (name : String) (rel : Path) :
    run fs made (parent ++ [name] ++ rel) = fs (parent ++ [name] ++ rel) := by
  refine run_frame fun step hstep htouches => ?_
  obtain ⟨q, rfl, hq, -⟩ := createDirAll_mkdir h hstep
  have hlong := hq.length_le
  rw [show q = parent ++ [name] ++ rel from htouches] at hlong
  simp at hlong

theorem run_extraction (fs : FileTree) (made : List Step) (parent : Path) (archive : Archive) (rel : Path) :
    run fs (made ++ extraction parent archive) (parent ++ [archive.top] ++ rel) =
      (treeOf archive.entries rel).or (run fs made (parent ++ [archive.top] ++ rel)) := by
  rw [run_append]
  exact run_writes archive.entries _ rel _

theorem append_singleton_inj {a b : String} {rel : Path} (h : parent ++ [a] <+: parent ++ [b] ++ rel) : a = b := by
  obtain ⟨rest, hrest⟩ := h
  rw [List.append_assoc, List.append_assoc] at hrest
  have htail := List.append_cancel_left hrest
  exact (List.cons.inj htail).1

theorem run_beside (hmade : createDirAll fs parent = .ok made) (hne : name ≠ archive.top) :
    run fs (made ++ extraction parent archive) (parent ++ [name]) = fs (parent ++ [name]) := by
  have hpath := run_made hmade name []
  rw [List.append_nil] at hpath
  rw [run_append]
  refine (run_frame fun step hstep htouches => ?_).trans hpath
  obtain ⟨entry, -, rfl⟩ := mem_extraction hstep
  have hsame : parent ++ [archive.top] ++ entry.1 = parent ++ [name] := htouches
  have hunder : parent ++ [name] <+: parent ++ [archive.top] ++ entry.1 := by rw [hsame]
  exact hne (append_singleton_inj hunder)

theorem treeOf_top (archive : Archive) : treeOf archive.entries [] = some .dir := by
  rw [treeOf, Archive.entries, List.map_cons, run, List.foldl_cons]
  have hfirst : (Step.write [] .dir).apply (fun _ => none) [] = some FileNode.dir := by
    rw [Step.apply, Function.update_self]
  refine run_kept hfirst fun step hstep => .inl ?_
  obtain ⟨entry, hentry, rfl⟩ := List.mem_map.mp hstep
  exact archive.below entry hentry

theorem all_outside (archive : Archive) (hmade : createDirAll fs parent = .ok made) :
    (made ++ extraction parent archive).all (fun step => !step.below (parent ++ [archive.top])) = true ↔
      archive.members = [] := by
  have hdirs : made.all (fun step => !step.below (parent ++ [archive.top])) = true := by
    rw [List.all_eq_true]
    intro step hstep
    obtain ⟨q, rfl, hq, -⟩ := createDirAll_mkdir hmade hstep
    have hnot : ¬ parent ++ [archive.top] <+: q := by
      intro hunder
      have hlong := (hunder.trans hq).length_le
      simp at hlong
    simp [Step.below, hnot]
  rw [List.all_append, hdirs, Bool.true_and, List.all_eq_true]
  constructor
  · intro hall
    rw [List.eq_nil_iff_forall_not_mem]
    intro entry hentry
    have hstep : Step.write (parent ++ [archive.top] ++ entry.1) entry.2 ∈ extraction parent archive :=
      List.mem_map_of_mem (List.mem_cons_of_mem _ hentry)
    have hinside := hall _ hstep
    simp [Step.below, archive.below entry hentry] at hinside
  · intro hnil step hstep
    obtain ⟨entry, hentry, rfl⟩ := mem_extraction hstep
    rw [Archive.entries, hnil, List.mem_singleton] at hentry
    rw [hentry]
    simp [Step.below]

theorem moveInto_steps {steps : List Step} {src dst : Path} {step : Step}
    (hstep : step ∈ (moveInto bare fs steps src dst).1) : step ∈ steps ∨ step = .move src dst := by
  rw [moveInto] at hstep
  split at hstep
  · split at hstep <;> exact .inl hstep
  · split at hstep
    · exact (List.mem_append.mp hstep).imp_right List.mem_singleton.mp
    · exact .inl hstep

theorem freshDataDir_concat (hfresh : fs (parent ++ [name]) = none) :
    freshDataDir fs (parent ++ [name]) = createDirAll fs parent := by
  rw [freshDataDir, if_neg (by simp [hfresh]), List.dropLast_concat]

theorem restore_of_listed (bare : Bool) (hfresh : fs (parent ++ [name]) = none)
    (hmade : createDirAll fs parent = .ok made) (hlisted : listedName tar archive = .ok listed) :
    restore tar bare fs archive (parent ++ [name]) =
      moveInto bare fs (made ++ extraction parent archive) (parent ++ [listed]) (parent ++ [name]) := by
  rw [restore, freshDataDir_concat hfresh, hmade]
  dsimp only
  rw [hlisted, List.dropLast_concat]

theorem safe_of_failed (hfresh : fs (parent ++ [name]) = none)
    (hfailed : ∀ made listed, createDirAll fs parent = .ok made → listedName tar archive ≠ .ok listed) :
    Safe tar bare fs archive (parent ++ [name]) := by
  obtain ⟨made, e, hrestore, hmkdir⟩ : ∃ made e, restore tar bare fs archive (parent ++ [name]) = (made, .error e) ∧
      ∀ step ∈ made, ∃ q, step = .mkdir q ∧ fs q = none := by
    rw [restore, freshDataDir_concat hfresh]
    cases hmade : createDirAll fs parent with
    | error e => exact ⟨[], e, rfl, fun step hstep => by cases hstep⟩
    | ok made =>
        cases hlisted : listedName tar archive with
        | ok listed => exact absurd hlisted (hfailed made listed hmade)
        | error e =>
            refine ⟨made, e, rfl, fun step hstep => ?_⟩
            obtain ⟨q, hq, -, hnone⟩ := createDirAll_mkdir hmade hstep
            exact ⟨q, hq, hnone⟩
  constructor
  · intro hok
    rw [hrestore] at hok
    cases hok
  · intro fs' hstopped p hp
    rw [hrestore] at hstopped
    refine hstopped.frame fun step hstep htouches => ?_
    obtain ⟨q, rfl, hnone⟩ := hmkdir step hstep
    obtain rfl : q = p := htouches
    exact hp hnone

end Extraction

section ListedTop

variable {tar : Tar} {bare : Bool} {fs : FileTree} {archive : Archive} {parent : Path} {name : String} {made : List Step}

/-- Without a directory in its way, the restore touches nothing that exists. -/
theorem moveInto_untouched (hfs : Rooted fs) (hfresh : fs (parent ++ [name]) = none)
    (hmade : createDirAll fs parent = .ok made) (htop : fs (parent ++ [archive.top]) = none)
    {step : Step} (hstep : step ∈ (moveInto bare fs (made ++ extraction parent archive)
      (parent ++ [archive.top]) (parent ++ [name])).1) {p : Path} (hp : fs p ≠ none) :
    ¬ step.Touches p := by
  intro htouches
  apply hp
  rcases moveInto_steps hstep with hmem | rfl
  · rcases List.mem_append.mp hmem with hmem | hmem
    · obtain ⟨q, rfl, -, hnone⟩ := createDirAll_mkdir hmade hmem
      obtain rfl : q = p := htouches
      exact hnone
    · obtain ⟨entry, -, rfl⟩ := mem_extraction hmem
      obtain rfl : parent ++ [archive.top] ++ entry.1 = p := htouches
      exact hfs.below_none htop entry.1
  · rcases htouches with ⟨rel, rfl⟩ | ⟨rel, rfl⟩
    · exact hfs.below_none htop rel
    · exact hfs.below_none hfresh rel

theorem moveInto_restored (hfs : Rooted fs)
    (hmade : createDirAll fs parent = .ok made) (htop : fs (parent ++ [archive.top]) = none)
    (hok : (moveInto bare fs (made ++ extraction parent archive) (parent ++ [archive.top])
      (parent ++ [name])).2 = .ok ()) (rel : Path) :
    run fs (moveInto bare fs (made ++ extraction parent archive) (parent ++ [archive.top])
      (parent ++ [name])).1 (parent ++ [name] ++ rel) = treeOf archive.entries rel := by
  have hextracted : ∀ rel, run fs (made ++ extraction parent archive) (parent ++ [archive.top] ++ rel) =
      treeOf archive.entries rel := by
    intro rel
    rw [run_extraction, run_made hmade, hfs.below_none htop, Option.or_none]
  rw [moveInto] at hok ⊢
  by_cases hsame : parent ++ [archive.top] = parent ++ [name]
  · have hthere : ¬ (bare = true ∧ run fs (made ++ extraction parent archive) (parent ++ [archive.top]) = none) := by
      rintro ⟨-, hnone⟩
      have hdir := hextracted []
      rw [List.append_nil, treeOf_top, hnone] at hdir
      cases hdir
    rw [if_pos hsame, if_neg hthere, ← hsame]
    exact hextracted rel
  · rw [if_neg hsame] at hok ⊢
    split at hok
    · rename_i hthere
      rw [if_pos hthere]
      dsimp only
      rw [run_append]
      exact (move_target _ _ _ _).trans (hextracted rel)
    · cases hok

theorem safe_of_none (hfs : Rooted fs) (hfresh : fs (parent ++ [name]) = none)
    (hmade : createDirAll fs parent = .ok made) (hlisted : listedName tar archive = .ok archive.top)
    (htop : fs (parent ++ [archive.top]) = none) : Safe tar bare fs archive (parent ++ [name]) := by
  have hrestore := restore_of_listed bare hfresh hmade hlisted
  constructor
  · intro hok rel
    rw [hrestore] at hok ⊢
    exact moveInto_restored hfs hmade htop hok rel
  · intro fs' hstopped p hp
    rw [hrestore] at hstopped
    exact hstopped.frame fun step hstep => moveInto_untouched hfs hfresh hmade htop hstep hp

theorem not_safe_of_moved {listed : String} (hfresh : fs (parent ++ [name]) = none)
    (hmade : createDirAll fs parent = .ok made) (hlisted : listedName tar archive = .ok listed)
    (hthere : fs (parent ++ [listed]) ≠ none)
    (hrenames : renames fs (made ++ extraction parent archive) (parent ++ [listed]) (parent ++ [name]) = true) :
    ¬ Safe tar bare fs archive (parent ++ [name]) := by
  intro hsafe
  have hne : listed ≠ name := by
    rintro rfl
    exact hthere hfresh
  have hdiffer : parent ++ [listed] ≠ parent ++ [name] := by
    intro he
    exact hne (List.cons.inj (List.append_cancel_left he)).1
  have hsteps : (restore tar bare fs archive (parent ++ [name])).1 = made ++ extraction parent archive ++
      [.move (parent ++ [listed]) (parent ++ [name])] := by
    rw [restore_of_listed bare hfresh hmade hlisted, moveInto, if_neg hdiffer, if_pos hrenames]
  have hkept := hsafe.kept _ (Stopped.whole _ _) (parent ++ [listed]) hthere
  rw [hsteps, run_append] at hkept
  have hapart : ¬ parent ++ [name] <+: parent ++ [listed] := by
    intro h
    rw [← List.append_nil (parent ++ [listed])] at h
    exact hne (append_singleton_inj h).symm
  have hgone := move_source (run fs (made ++ extraction parent archive)) hapart
  exact hthere (hkept.symm.trans hgone)

theorem not_safe_of_some (hfs : Rooted fs) (hfresh : fs (parent ++ [name]) = none)
    (hlisted : listedName tar archive = .ok archive.top) (htop : fs (parent ++ [archive.top]) ≠ none) :
    ¬ Safe tar bare fs archive (parent ++ [name]) := by
  have hne : name ≠ archive.top := by
    rintro rfl
    exact htop hfresh
  have hmade := createDirAll_of_exists hfs htop
  apply not_safe_of_moved hfresh hmade hlisted htop
  have hthere : (run fs ([] ++ extraction parent archive) (parent ++ [archive.top])).isSome = true := by
    have hwritten := run_extraction fs [] parent archive []
    rw [List.append_nil, treeOf_top] at hwritten
    rw [hwritten]
    rfl
  rw [renames, hthere, run_beside hmade hne, hfresh]
  rfl

end ListedTop

section ListedOther

variable {tar : Tar} {bare : Bool} {fs : FileTree} {archive : Archive} {parent : Path} {name listed : String} {made : List Step}

theorem renames_iff (hfresh : fs (parent ++ [name]) = none) (hmade : createDirAll fs parent = .ok made)
    (hother : listed ≠ archive.top) :
    renames fs (made ++ extraction parent archive) (parent ++ [listed]) (parent ++ [name]) = true ↔
      fs (parent ++ [listed]) ≠ none ∧ ¬ Blocked fs archive (parent ++ [name]) listed := by
  rw [renames, run_beside hmade hother, Bool.and_eq_true, Option.isSome_iff_ne_none]
  apply and_congr_right
  intro hthere
  by_cases hname : name = archive.top
  · have hdir : run fs (made ++ extraction parent archive) (parent ++ [name]) = some .dir := by
      have hwritten := run_extraction fs made parent archive []
      rw [List.append_nil, treeOf_top] at hwritten
      rw [hname, hwritten]
      rfl
    have hempty := all_outside archive hmade
    rw [← hname] at hempty
    rw [hdir, Blocked, List.dropLast_concat, ← hname, and_iff_right rfl, not_or, not_not, not_not, ← hempty]
    simp [and_comm]
  · rw [run_beside hmade hname, hfresh]
    refine iff_of_true rfl fun hblocked => ?_
    obtain ⟨htop, -⟩ := hblocked
    rw [List.dropLast_concat] at htop
    exact hname (List.cons.inj (List.append_cancel_left htop)).1

theorem kept_of_unharmed (hmade : createDirAll fs parent = .ok made) (hunharmed : Unharmed fs parent archive)
    {fs' : FileTree} (hstopped : Stopped fs (made ++ extraction parent archive) fs') {p : Path} (hp : fs p ≠ none) :
    fs' p = fs p := by
  obtain ⟨node, hnode⟩ := Option.ne_none_iff_exists'.mp hp
  rw [hnode]
  refine hstopped.kept hnode fun step hstep => ?_
  rcases List.mem_append.mp hstep with hstep | hstep
  · obtain ⟨q, rfl, -, hnone⟩ := createDirAll_mkdir hmade hstep
    refine .inl fun htouches => ?_
    obtain rfl : q = p := htouches
    exact hp hnone
  · obtain ⟨entry, hentry, rfl⟩ := mem_extraction hstep
    by_cases hpath : parent ++ [archive.top] ++ entry.1 = p
    · rw [← hpath] at hnode
      obtain ⟨hsame, hwhole⟩ := hunharmed entry hentry node hnode
      exact .inr ⟨by rw [hpath, hsame], hwhole⟩
    · exact .inl hpath

theorem unharmed_of_kept {steps : List Step} (hstarts : made ++ extraction parent archive <+: steps)
    (hkept : ∀ fs', Stopped fs steps fs' → ∀ p, fs p ≠ none → fs' p = fs p) : Unharmed fs parent archive := by
  intro entry hentry node hnode
  obtain ⟨front, back, hsplit⟩ := List.append_of_mem hentry
  obtain ⟨rest, rfl⟩ := hstarts
  generalize hq : parent ++ [archive.top] ++ entry.1 = q at hnode
  obtain ⟨done, after, hsteps⟩ : ∃ done after,
      made ++ extraction parent archive ++ rest = done ++ Step.write q entry.2 :: after := by
    refine ⟨made ++ front.map (fun entry => .write (parent ++ [archive.top] ++ entry.1) entry.2),
      back.map (fun entry => .write (parent ++ [archive.top] ++ entry.1) entry.2) ++ rest, ?_⟩
    rw [extraction, hsplit, List.map_append, List.map_cons, hq]
    simp
  rw [hsteps] at hkept
  have hthere : fs q ≠ none := by
    rw [hnode]
    exact Option.some_ne_none _
  have hwritten := hkept _ (by
    have hstopped := Stopped.upto fs (done ++ [.write q entry.2]) after
    rwa [List.append_assoc] at hstopped) q hthere
  rw [run_append, hnode] at hwritten
  have hlast : run (run fs done) [.write q entry.2] q = some entry.2 := Function.update_self _ _ _
  have hsame : entry.2 = node := Option.some.inj (hlast.symm.trans hwritten)
  refine ⟨hsame, ?_⟩
  cases hentry2 : entry.2 with
  | dir => exact .inl (hsame.symm.trans hentry2)
  | file content =>
      rw [hentry2] at hkept hsame
      have hempty := hkept _ (Stopped.part fs done after q List.nil_prefix) q hthere
      rw [hnode, ← hsame] at hempty
      have hnil : Step.apply (run fs done) (.write q (.file [])) q = some (.file []) :=
        Function.update_self _ _ _
      exact .inr (hsame.symm.trans (Option.some.inj (hempty.symm.trans hnil)))

theorem moveInto_starts (bare : Bool) (fs : FileTree) (steps : List Step) (src dst : Path) :
    steps <+: (moveInto bare fs steps src dst).1 := by
  rw [moveInto]
  split
  · split <;> exact List.prefix_rfl
  · split
    · exact List.prefix_append _ _
    · exact List.prefix_rfl

theorem safe_other_iff (hfresh : fs (parent ++ [name]) = none) (hmade : createDirAll fs parent = .ok made)
    (hlisted : listedName tar archive = .ok listed) (hother : listed ≠ archive.top) :
    Safe tar bare fs archive (parent ++ [name]) ↔ (name = listed → bare = true) ∧ Unharmed fs parent archive ∧
      (fs (parent ++ [listed]) = none ∨ Blocked fs archive (parent ++ [name]) listed) := by
  have hrestore := restore_of_listed bare hfresh hmade hlisted
  constructor
  · intro hsafe
    refine ⟨?_, ?_, ?_⟩
    · rintro rfl
      by_contra hbare
      -- the success moves nothing, and the archive is elsewhere
      rw [moveInto, if_pos rfl, if_neg (fun h => hbare h.1)] at hrestore
      have hdir := hsafe.restored (by rw [hrestore]) []
      rw [hrestore, List.append_nil, treeOf_top, run_beside hmade hother, hfresh] at hdir
      cases hdir
    · have hkept := hsafe.kept
      rw [hrestore] at hkept
      exact unharmed_of_kept (moveInto_starts bare fs _ _ _) hkept
    · by_contra hnot
      rw [not_or] at hnot
      exact not_safe_of_moved hfresh hmade hlisted hnot.1 ((renames_iff hfresh hmade hother).mpr hnot) hsafe
  · rintro ⟨hbare, hunharmed, hstays⟩
    have hnot : ¬ renames fs (made ++ extraction parent archive) (parent ++ [listed])
        (parent ++ [name]) = true := by
      rw [renames_iff hfresh hmade hother, ← not_or, not_not]
      exact hstays
    obtain ⟨e, hfails⟩ : ∃ e, restore tar bare fs archive (parent ++ [name]) =
        (made ++ extraction parent archive, .error e) := by
      rw [moveInto] at hrestore
      by_cases hsame : parent ++ [listed] = parent ++ [name]
      · have hname : name = listed := (List.cons.inj (List.append_cancel_left hsame)).1.symm
        have hgone : run fs (made ++ extraction parent archive) (parent ++ [listed]) = none := by
          rw [run_beside hmade hother, hsame, hfresh]
        rw [if_pos hsame, if_pos ⟨hbare hname, hgone⟩] at hrestore
        exact ⟨_, hrestore⟩
      · rw [if_neg hsame, if_neg hnot] at hrestore
        exact ⟨_, hrestore⟩
    constructor
    · intro hok
      rw [hfails] at hok
      cases hok
    · intro fs' hstopped p hp
      rw [hfails] at hstopped
      exact kept_of_unharmed hmade hunharmed hstopped hp

end ListedOther

/-- A restore is safe exactly when it fails before the extraction, or when
nothing stands in the way of it and of the move from the listed name. -/
theorem restore_safe_iff (tar : Tar) (bare : Bool) {fs : FileTree} (hfs : Rooted fs)
    (archive : Archive) (dataDir : Path) (hfresh : fs dataDir = none) :
    Safe tar bare fs archive dataDir ↔ ∀ made listed, freshDataDir fs dataDir = .ok made →
      listedName tar archive = .ok listed → Clear bare fs archive dataDir listed := by
  rcases List.eq_nil_or_concat dataDir with rfl | ⟨parent, name, rfl⟩
  · rw [hfs.root] at hfresh
    cases hfresh
  · rw [List.concat_eq_append] at hfresh ⊢
    rw [freshDataDir_concat hfresh]
    by_cases hfailed : ∀ made listed, createDirAll fs parent = .ok made → listedName tar archive ≠ .ok listed
    · exact iff_of_true (safe_of_failed hfresh hfailed)
        fun made listed hmade hlisted => absurd hlisted (hfailed made listed hmade)
    · push Not at hfailed
      obtain ⟨made, listed, hmade, hlisted⟩ := hfailed
      have hone : (∀ made listed, createDirAll fs parent = .ok made → listedName tar archive = .ok listed →
          Clear bare fs archive (parent ++ [name]) listed) ↔ Clear bare fs archive (parent ++ [name]) listed := by
        constructor
        · intro h
          exact h made listed hmade hlisted
        · rintro hclear made' listed' - hlisted'
          obtain rfl := Except.ok.inj (hlisted.symm.trans hlisted')
          exact hclear
      rw [hone, Clear, List.dropLast_concat]
      by_cases htop : listed = archive.top
      · subst htop
        rw [if_pos rfl]
        constructor
        · intro hsafe
          by_contra hsome
          exact not_safe_of_some hfs hfresh hlisted hsome hsafe
        · exact safe_of_none hfs hfresh hmade hlisted
      · rw [if_neg htop, safe_other_iff hfresh hmade hlisted htop]
        simp

section Samples

def quoteChar (c : Char) : List Char :=
  if c = '\\' then ['\\', '\\']
  else if c = '\n' then ['\\', 'n']
  else if c = '\t' then ['\\', 't']
  else if c = '\r' then ['\\', 'r']
  else [c]

def quote (name : String) : String := String.ofList (name.toList.flatMap quoteChar)

def listLine (archive : Archive) (entry : Path × FileNode) : String :=
  quote ("/".intercalate (archive.top :: entry.1)) ++ (if entry.2 = .dir then "/" else "") ++ "\n"

def quotingTar : Tar where
  list archive := .ok (String.join (archive.entries.map (listLine archive)))

def liveArchive : Archive where
  top := "live"
  members := [(["db"], .file [2])]
  top_name := ⟨by decide, by decide, by decide, by decide⟩
  below := by decide

def srvTree : FileTree := fun p => if p = [] ∨ p = ["srv"] then some .dir else none

def liveTree : FileTree := fun p =>
  if p = ["srv", "live"] then some .dir
  else if p = ["srv", "live", "db"] then some (.file [1])
  else srvTree p

theorem rooted_srvTree : Rooted srvTree := by
  refine ⟨by decide, fun p name hne => ?_⟩
  have hpath : p ++ [name] = [] ∨ p ++ [name] = ["srv"] := by
    by_contra hnot
    exact hne (if_neg hnot)
  rcases hpath with h | h
  · simp at h
  · have h' : p ++ [name] = [] ++ ["srv"] := h
    obtain ⟨rfl, -⟩ := List.append_inj' h' rfl
    decide

theorem rooted_liveTree : Rooted liveTree := by
  refine ⟨by decide, fun p name hne => ?_⟩
  by_cases hlive : p ++ [name] = ["srv", "live"]
  · have hlive' : p ++ [name] = ["srv"] ++ ["live"] := hlive
    obtain ⟨rfl, -⟩ := List.append_inj' hlive' rfl
    decide
  · by_cases hdb : p ++ [name] = ["srv", "live", "db"]
    · have hdb' : p ++ [name] = ["srv", "live"] ++ ["db"] := hdb
      obtain ⟨rfl, -⟩ := List.append_inj' hdb' rfl
      decide
    · have hsrv := rooted_srvTree.parent p name (by
        rwa [liveTree, if_neg hlive, if_neg hdb] at hne)
      have hp : p = [] ∨ p = ["srv"] := by
        by_contra hnot
        rw [srvTree, if_neg hnot] at hsrv
        cases hsrv
      rcases hp with rfl | rfl <;> decide

theorem restore_safe_fresh : Safe quotingTar false srvTree liveArchive ["srv", "new"] :=
  (restore_safe_iff quotingTar false rooted_srvTree liveArchive ["srv", "new"] (by decide)).mpr
    fun made listed _ hlisted => by
      have hlive : listedName quotingTar liveArchive = .ok "live" := by decide +kernel
      obtain rfl := Except.ok.inj (hlive.symm.trans hlisted)
      have htop : "live" = liveArchive.top := rfl
      rw [Clear, if_pos htop]
      decide

/-- The database beside the data directory is overwritten and moved away. -/
theorem restore_moves_database :
    Rooted liveTree ∧ liveTree ["srv", "new"] = none ∧
      (restore quotingTar false liveTree liveArchive ["srv", "new"]).2 = .ok () ∧
      liveTree ["srv", "live", "db"] = some (.file [1]) ∧
      run liveTree (restore quotingTar false liveTree liveArchive ["srv", "new"]).1 ["srv", "live", "db"] = none ∧
      ¬ Safe quotingTar false liveTree liveArchive ["srv", "new"] := by
  have hgone : run liveTree (restore quotingTar false liveTree liveArchive ["srv", "new"]).1
      ["srv", "live", "db"] = none := by decide +kernel
  refine ⟨rooted_liveTree, by decide, by decide +kernel, by decide, hgone, fun hsafe => ?_⟩
  have hkept := hsafe.kept _ (Stopped.whole _ _) ["srv", "live", "db"] (by decide)
  rw [hgone] at hkept
  exact absurd hkept (by decide)

def quotedArchive : Archive where
  top := "a\\d"
  members := [(["db"], .file [2])]
  top_name := ⟨by decide, by decide, by decide, by decide⟩
  below := by decide

def quotedTree : FileTree := fun p => if p = ["srv", "a\\\\d"] then some .dir else srvTree p

/-- What is moved into the data directory stood under the listed name before. -/
example : (restore quotingTar false quotedTree quotedArchive ["srv", "new"]).2 = .ok () ∧
    quotedTree ["srv", "a\\\\d"] = some .dir ∧
    run quotedTree (restore quotingTar false quotedTree quotedArchive ["srv", "new"]).1 ["srv", "a\\\\d"] = none := by
  decide +kernel

end Samples

end Nightfrost.Snapshot
