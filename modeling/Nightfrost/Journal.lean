import Nightfrost.Scripts

namespace Nightfrost.Journal

open Scripts

variable {S B ε α : Type}

/-- A store on disk, the batches that made it, and the batches committed since
that a crash can still lose. -/
structure Disk (S B : Type) where
  durable : S
  survived : List B
  journal : List B

def started (s : S) : Disk S B := ⟨s, [], []⟩

def Disk.append (d : Disk S B) (b : B) : Disk S B := { d with journal := d.journal ++ [b] }

/-- A change that reaches the disk at once, ahead of the journal. -/
def Disk.onDisk (f : S → S) (d : Disk S B) : Disk S B := { d with durable := f d.durable }

variable (apply : S → B → S)

def Disk.view (d : Disk S B) : S := d.journal.foldl apply d.durable

/-- A crash that the first `n` batches of the journal survive. -/
def Disk.crash (d : Disk S B) (n : Nat) : Disk S B where
  durable := (d.journal.take n).foldl apply d.durable
  survived := d.survived ++ d.journal.take n
  journal := []

def Disk.sync (d : Disk S B) : Disk S B := d.crash apply d.journal.length

/-- What is on disk when a program was started any number of times, each time on
what a crash of the run before had left. -/
inductive Restarts (x : Script (Disk S B) ε α) (s : S) : Disk S B → Prop
  | start : Restarts x s (started s)
  | again {d d' : Disk S B} (h : Restarts x s d) (hcut : Leaves x d d') (n : Nat) :
      Restarts x s (d'.crash apply n)

/-- The same where the program depends on what it meets outside of the disk, which
may be something else at every start. -/
inductive Sessions {ι : Type} (x : ι → Script (Disk S B) ε α) (s : S) : Disk S B → Prop
  | start : Sessions x s (started s)
  | again {d d' : Disk S B} (h : Sessions x s d) (i : ι) (hcut : Leaves (x i) d d') (n : Nat) :
      Sessions x s (d'.crash apply n)

/-- A property of the store and the batches that made it holds wherever a crash
cuts the journal. -/
def Safe (P : S → List B → Prop) (d : Disk S B) : Prop :=
  ∀ n, P (d.crash apply n).durable (d.crash apply n).survived

variable {apply} {P : S → List B → Prop} {d d' : Disk S B} {b : B} {s : S}

@[simp] theorem view_append : (d.append b).view apply = apply (d.view apply) b := by
  simp [Disk.append, Disk.view]

@[simp] theorem view_of_empty (h : d.journal = []) : d.view apply = d.durable := by
  simp [Disk.view, h]

@[simp] theorem crash_journal (n : Nat) : (d.crash apply n).journal = [] := rfl

@[simp] theorem sync_durable : (d.sync apply).durable = d.view apply := by
  simp [Disk.sync, Disk.crash, Disk.view]

@[simp] theorem sync_journal : (d.sync apply).journal = [] := rfl

theorem safe_of_empty (hempty : d.journal = []) : Safe apply P d ↔ P d.durable d.survived := by
  simp [Safe, Disk.crash, hempty]

theorem safe_onDisk {f : S → S} (hempty : d.journal = []) :
    Safe apply P (d.onDisk f) ↔ P (f d.durable) d.survived :=
  safe_of_empty hempty

theorem Safe.here (h : Safe apply P d) : P (d.view apply) (d.survived ++ d.journal) := by
  have hall := h d.journal.length
  simpa [Disk.crash, Disk.view] using hall

theorem Safe.crash (h : Safe apply P d) (n : Nat) : Safe apply P (d.crash apply n) :=
  (safe_of_empty (crash_journal n)).mpr (h n)

theorem Safe.sync (h : Safe apply P d) : Safe apply P (d.sync apply) := h.crash _

theorem Safe.append (h : Safe apply P d)
    (hnew : P (apply (d.view apply) b) (d.survived ++ d.journal ++ [b])) :
    Safe apply P (d.append b) := by
  intro n
  by_cases hn : n ≤ d.journal.length
  · have hold := h n
    simpa [Disk.crash, Disk.append, List.take_append_of_le_length hn] using hold
  · have hall : (d.journal ++ [b]).take n = d.journal ++ [b] :=
      List.take_of_length_le (by rw [List.length_append, List.length_singleton]; omega)
    simpa [Disk.crash, Disk.append, hall, Disk.view, List.append_assoc] using hnew

/-- Where every start from a sound disk keeps it sound, every restart finds one. -/
theorem Restarts.sound {E : ε → Prop} {R : Disk S B → α → Disk S B → Prop}
    {x : Script (Disk S B) ε α} (hrun : Restarts apply x s d) (hs : P s [])
    (h : ∀ d, d.journal = [] → P d.durable d.survived → Keeps (Safe apply P) E (R d) x d) :
    d.journal = [] ∧ P d.durable d.survived := by
  induction hrun with
  | start => exact ⟨rfl, hs⟩
  | again _ hcut n ih => exact ⟨rfl, (h _ ih.1 ih.2).leaves hcut n⟩

theorem Sessions.sound {ι : Type} {E : ε → Prop} {R : Disk S B → α → Disk S B → Prop}
    {x : ι → Script (Disk S B) ε α} (hrun : Sessions apply x s d) (hs : P s [])
    (h : ∀ i d, d.journal = [] → P d.durable d.survived → Keeps (Safe apply P) E (R d) (x i) d) :
    d.journal = [] ∧ P d.durable d.survived := by
  induction hrun with
  | start => exact ⟨rfl, hs⟩
  | again _ i hcut n ih => exact ⟨rfl, (h i _ ih.1 ih.2).leaves hcut n⟩

end Nightfrost.Journal
