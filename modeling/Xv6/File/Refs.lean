import Mathlib
import Xv6.Library.Count
import Xv6.Library.Machine
import Xv6.File.Table

/-!
Reference counts of the open-file layer. A file's `ref` is the number of
descriptors that point to it, plus the references a call in progress holds:
`filealloc` and `filedup` hand one to the call, `fdalloc` moves it into a
descriptor, clearing a descriptor hands it back, and `fileclose` drops it
(`Counted`). Each call below is proved from its first line to its last with
the list of references it holds, which is empty again when it returns.

The pipes' flags follow the files: an end is open while some file is that end,
and `kfree` has run once on exactly the pipes whose two ends are closed
(`PipesOk`).
-/

namespace Xv6.Files

/-- `file` is the read (`writable = false`) or write end of pipe `pi`. -/
def File.isEnd (file : File) (pi : Nat) (writable : Bool) : Prop :=
  file.type = .pipe ∧ file.pipe = pi ∧ file.writable = writable

/-- A pipe end is an end of one pipe only. -/
theorem File.isEnd.iff {file : File} {p : Nat} {v : Bool} (isEnd : file.isEnd p v) (pi : Nat) (w : Bool) :
    file.isEnd pi w ↔ pi = p ∧ w = v := by
  obtain ⟨pipe, rfl, rfl⟩ := isEnd
  simp [File.isEnd, pipe, eq_comm]

/-- The flag of the end that `writable` names. -/
def Pipe.isOpen (p : Pipe) (writable : Bool) : Bool :=
  if writable then p.writeopen else p.readopen

section Invariant

/-- Every file's `ref` counts the descriptors that point to it and the
references the call in progress holds, listed in `held`. -/
def Counted (s : Sys) (held : List (Fin nFile)) : Prop :=
  ∀ f, (s.files f).ref = Count.refs s.ofile f + held.count f

/-- What the pipes' flags and `kfree`s say about the files, and the empty
descriptor tables of the slots with no process. -/
structure PipesOk (s : Sys) : Prop where
  unusedNone : ∀ f, (s.files f).ref = 0 → (s.files f).type = .none
  pipeBelow : ∀ f, (s.files f).type = .pipe → (s.files f).pipe < s.nextPipe
  openEnd : ∀ pi w, pi < s.nextPipe → ((s.pipes pi).isOpen w = true ↔ ∃ f, (s.files f).isEnd pi w)
  endUnique : ∀ f g pi w, (s.files f).isEnd pi w → (s.files g).isEnd pi w → f = g
  freedOnce : ∀ pi, s.freed pi =
    if pi < s.nextPipe ∧ (s.pipes pi).isOpen false = false ∧ (s.pipes pi).isOpen true = false then 1 else 0
  deadClosed : ∀ p fd, s.alive p = false → s.ofile (p, fd) = none

/-- The invariant of the states between system calls. -/
structure Inv (s : Sys) : Prop where
  counted : Counted s []
  pipes : PipesOk s

end Invariant

section Counting

variable {s : Sys} {held : List (Fin nFile)} {f : Fin nFile} {slot : Slot}

theorem Counted.live (counted : Counted s held) (mem : f ∈ held) : 0 < (s.files f).ref := by
  rw [counted f]
  have := List.count_pos_iff.mpr mem
  omega

theorem Counted.live_of_ofile (counted : Counted s held) (points : s.ofile slot = some f) :
    0 < (s.files f).ref := by
  rw [counted f]
  have := Count.refs_pos points
  omega

/-- A file with no references is in no descriptor and held by no call. -/
theorem Counted.unreferenced (counted : Counted s held) (free : (s.files f).ref = 0) :
    (∀ slot, s.ofile slot ≠ some f) ∧ f ∉ held := by
  rw [counted f] at free
  exact ⟨Count.refs_eq_zero.mp (by omega), List.count_eq_zero.mp (by omega)⟩

theorem Counted.setFile (counted : Counted s held) {held' : List (Fin nFile)} (file : File)
    (ref : file.ref + held.count f = (s.files f).ref + held'.count f)
    (others : ∀ g, g ≠ f → held'.count g = held.count g) :
    Counted (s.setFile f file) held' := by
  intro g
  by_cases here : g = f
  · subst here
    have := counted g
    simp only [Sys.setFile_files, Function.update_self, Sys.setFile_ofile]
    omega
  · simp only [Sys.setFile_files, Function.update_of_ne here, Sys.setFile_ofile, counted g,
      others g here]

theorem Counted.take (counted : Counted s held) (file : File) (ref : file.ref = (s.files f).ref + 1) :
    Counted (s.setFile f file) (f :: held) :=
  counted.setFile file (by rw [ref, List.count_cons_self]; omega)
    (fun _ apart => List.count_cons_of_ne (Ne.symm apart))

theorem Counted.drop (counted : Counted s held) (mem : f ∈ held) (file : File)
    (ref : file.ref = (s.files f).ref - 1) :
    Counted (s.setFile f file) (held.erase f) := by
  have live := counted.live mem
  refine counted.setFile file ?_ fun g apart => ?_
  · have := List.count_pos_iff.mpr mem
    rw [ref, List.count_erase]
    simp only [BEq.rfl, if_true]
    omega
  · rw [List.count_erase]
    simp [Ne.symm apart]

theorem Counted.fill (counted : Counted s held) (empty : s.ofile slot = none) (mem : f ∈ held) :
    Counted (s.setOfile slot (some f)) (held.erase f) := by
  intro g
  have := List.count_pos_iff.mpr mem
  simp only [Sys.setOfile_files, Sys.setOfile_ofile, Count.refs_fill empty, List.count_erase,
    counted g]
  by_cases here : g = f
  · subst here
    simp only [if_true, BEq.rfl]
    omega
  · simp [here, Ne.symm here]

theorem Counted.clear (counted : Counted s held) (points : s.ofile slot = some f) :
    Counted (s.setOfile slot none) (f :: held) := by
  intro g
  have cleared := Count.refs_clear points g
  simp only [Sys.setOfile_files, Sys.setOfile_ofile, List.count_cons, counted g]
  by_cases here : g = f
  · subst here
    simp only [if_true, BEq.rfl] at cleared ⊢
    omega
  · simp only [here, if_false, Nat.add_zero] at cleared
    simp [Ne.symm here, ← cleared]

theorem Counted.pipeclose (counted : Counted s held) (pi : Nat) (writable : Bool) :
    Counted (pipeclose s pi writable) held := by
  simpa [Counted] using counted

end Counting

section Specs

variable {s : Sys} {f : Fin nFile}

theorem filealloc_cases (s : Sys) :
    filealloc s = (none, s) ∨
      ∃ f, (s.files f).ref = 0 ∧ filealloc s = (some f, s.setFile f { s.files f with ref := 1 }) := by
  unfold filealloc
  cases found : (List.finRange nFile).find? (fun f => (s.files f).ref = 0) with
  | none => exact .inl rfl
  | some f => exact .inr ⟨f, by simpa using List.find?_some found, rfl⟩

theorem fdalloc_cases (s : Sys) (p : Fin nProc) (f : Fin nFile) :
    fdalloc s p f = (none, s) ∨
      ∃ fd, s.ofile (p, fd) = none ∧ fdalloc s p f = (some fd, s.setOfile (p, fd) (some f)) := by
  unfold fdalloc
  cases found : (List.finRange nOFile).find? (fun fd => s.ofile (p, fd) = none) with
  | none => exact .inl rfl
  | some fd => exact .inr ⟨fd, by simpa using List.find?_some found, rfl⟩

theorem filedup_live (live : 0 < (s.files f).ref) :
    filedup s f = .ok (s.setFile f { s.files f with ref := (s.files f).ref + 1 }) := by
  simp [filedup, Nat.not_lt.mpr live]

theorem fileclose_cases (live : 0 < (s.files f).ref) :
    (1 < (s.files f).ref ∧
      fileclose s f = .ok (s.setFile f { s.files f with ref := (s.files f).ref - 1 })) ∨
    ((s.files f).ref = 1 ∧ (s.files f).type ≠ .pipe ∧
      fileclose s f = .ok (s.setFile f { s.files f with ref := 0, type := .none })) ∨
    ((s.files f).ref = 1 ∧ (s.files f).type = .pipe ∧
      fileclose s f = .ok (pipeclose (s.setFile f { s.files f with ref := 0, type := .none })
        (s.files f).pipe (s.files f).writable)) := by
  have kept : ¬(s.files f).ref < 1 := by omega
  by_cases more : 1 < (s.files f).ref
  · left
    exact ⟨more, by simp [fileclose, kept, show (s.files f).ref - 1 > 0 by omega]⟩
  · have last : (s.files f).ref = 1 := by omega
    right
    by_cases pipe : (s.files f).type = .pipe
    · exact .inr ⟨last, pipe, by simp [fileclose, last, pipe]⟩
    · exact .inl ⟨last, pipe, by simp [fileclose, last, pipe]⟩

theorem argfd_some {p : Fin nProc} {fd : Int} {slot : Fin nOFile} (found : argfd s p fd = some (slot, f)) :
    s.ofile (p, slot) = some f := by
  unfold argfd at found
  split at found
  · simp only [Option.map_eq_some_iff, Prod.mk.injEq] at found
    obtain ⟨g, points, rfl, rfl⟩ := found
    exact points
  · cases found

theorem pipeclose_isOpen (s : Sys) (pi : Nat) (w : Bool) (pi' : Nat) (w' : Bool) :
    ((pipeclose s pi w).pipes pi').isOpen w' = ((s.pipes pi').isOpen w' && !(decide (pi' = pi) && w' == w)) := by
  by_cases here : pi' = pi
  · subst here
    cases w <;> cases w' <;> simp [pipeclose, Pipe.isOpen] <;> split_ifs <;> simp
  · cases w <;> simp [pipeclose, Pipe.isOpen, here] <;> split_ifs <;> simp [here]

theorem pipeclose_freed (s : Sys) (pi : Nat) (w : Bool) (pi' : Nat) :
    (pipeclose s pi w).freed pi' = s.freed pi' + if pi' = pi ∧ (s.pipes pi).isOpen (!w) = false then 1 else 0 := by
  by_cases here : pi' = pi
  · subst here
    cases w <;> simp [pipeclose, Pipe.isOpen] <;> split_ifs <;> simp
  · cases w <;> simp [pipeclose, Pipe.isOpen, here] <;> split_ifs <;> simp [here]

theorem pipeclose_setOfile (s : Sys) (pi : Nat) (w : Bool) (slot : Slot) (x : Option (Fin nFile)) :
    pipeclose (s.setOfile slot x) pi w = (pipeclose s pi w).setOfile slot x := by
  unfold pipeclose
  simp only [Sys.setOfile_pipes, Sys.setOfile_freed]
  split_ifs <;> rfl

theorem fileclose_setOfile (slot : Slot) (x : Option (Fin nFile)) :
    fileclose (s.setOfile slot x) f = (fileclose s f).map (·.setOfile slot x) := by
  unfold fileclose
  simp only [Sys.setOfile_files]
  by_cases none : (s.files f).ref < 1
  · simp [none, Except.map]
  by_cases more : (s.files f).ref - 1 > 0
  · simp only [none, more, if_false, if_true, Except.map]
    rfl
  by_cases pipe : (s.files f).type = .pipe
  · simp only [none, more, pipe, if_false, if_true, Except.map]
    exact congrArg Except.ok (pipeclose_setOfile (s.setFile f { s.files f with ref := 0, type := .none })
      (s.files f).pipe (s.files f).writable slot x)
  · simp only [none, more, pipe, if_false, Except.map]
    rfl

end Specs

section Pipes

variable {s : Sys} {f : Fin nFile}

theorem PipesOk.setFile (ok : PipesOk s) (file : File)
    (unused : file.ref = 0 → file.type = .none)
    (below : file.type = .pipe → file.pipe < s.nextPipe)
    (ends : ∀ pi w, file.isEnd pi w ↔ (s.files f).isEnd pi w) :
    PipesOk (s.setFile f file) := by
  have isEnd_iff : ∀ g pi w, (Function.update s.files f file g).isEnd pi w ↔ (s.files g).isEnd pi w := by
    intro g pi w
    by_cases here : g = f
    · subst here
      simp [ends]
    · simp [Function.update_of_ne here]
  refine ⟨fun g => ?_, fun g => ?_, fun pi w lt => ?_, fun g g' pi w => ?_, ok.freedOnce, ok.deadClosed⟩
  · by_cases here : g = f
    · subst here
      simpa using unused
    · simpa [Function.update_of_ne here] using ok.unusedNone g
  · by_cases here : g = f
    · subst here
      simpa using below
    · simpa [Function.update_of_ne here] using ok.pipeBelow g
  · simp only [Sys.setFile_files, Sys.setFile_pipes, isEnd_iff]
    exact ok.openEnd pi w lt
  · simp only [Sys.setFile_files, isEnd_iff]
    exact ok.endUnique g g' pi w

theorem PipesOk.setRef (ok : PipesOk s) {ref : Nat} (live : 0 < ref) :
    PipesOk (s.setFile f { s.files f with ref := ref }) :=
  ok.setFile _ (fun zero => absurd zero (Nat.pos_iff_ne_zero.mp live)) (ok.pipeBelow f) fun _ _ => Iff.rfl

theorem PipesOk.setPlain (ok : PipesOk s) (file : File) (plain : (s.files f).type ≠ .pipe)
    (notPipe : file.type ≠ .pipe) (unused : file.ref = 0 → file.type = .none) :
    PipesOk (s.setFile f file) :=
  ok.setFile file unused (fun pipe => absurd pipe notPipe)
    fun _ _ => by simp [File.isEnd, plain, notPipe]

theorem PipesOk.closeEnd (ok : PipesOk s) (pipe : (s.files f).type = .pipe) :
    PipesOk (pipeclose (s.setFile f { s.files f with ref := 0, type := .none })
      (s.files f).pipe (s.files f).writable) := by
  set pi := (s.files f).pipe
  set w := (s.files f).writable
  have isEnd_f : (s.files f).isEnd pi w := ⟨pipe, rfl, rfl⟩
  have below : pi < s.nextPipe := ok.pipeBelow f pipe
  have wasOpen : (s.pipes pi).isOpen w = true := (ok.openEnd pi w below).mpr ⟨f, isEnd_f⟩
  -- after the update, the pipe ends are those of the other files
  have isEnd_iff : ∀ g pi' w', (Function.update s.files f { s.files f with ref := 0, type := .none } g).isEnd pi' w' ↔
      g ≠ f ∧ (s.files g).isEnd pi' w' := by
    intro g pi' w'
    by_cases here : g = f
    · subst here
      simp [File.isEnd]
    · simp [here]
  refine ⟨fun g => ?_, fun g => ?_, fun pi' w' lt => ?_, fun g g' pi' w' => ?_, fun pi' => ?_,
    fun p fd dead => by simpa using ok.deadClosed p fd (by simpa using dead)⟩
  · by_cases here : g = f
    · subst here
      simp
    · simpa [Function.update_of_ne here] using ok.unusedNone g
  · by_cases here : g = f
    · subst here
      simp
    · simpa [Function.update_of_ne here] using ok.pipeBelow g
  · simp only [pipeclose_files, Sys.setFile_files, isEnd_iff, pipeclose_isOpen, Sys.setFile_pipes]
    by_cases closing : pi' = pi ∧ w' = w
    · -- the end that closes has no other file
      obtain ⟨rfl, rfl⟩ := closing
      simp only [decide_true, BEq.rfl, Bool.and_self, Bool.not_true, Bool.and_false,
        Bool.false_eq_true, false_iff, not_exists, not_and]
      intro g apart isEnd_g
      exact apart (ok.endUnique g f _ _ isEnd_g isEnd_f)
    · have other : ¬(s.files f).isEnd pi' w' := fun isEnd' => closing ((isEnd_f.iff pi' w').mp isEnd')
      have kept : (decide (pi' = pi) && w' == w) = false := by
        simpa using fun same => by simpa [same] using closing
      rw [kept, Bool.not_false, Bool.and_true, ok.openEnd pi' w' (by simpa using lt)]
      constructor
      · rintro ⟨g, isEnd_g⟩
        exact ⟨g, fun same => other (same ▸ isEnd_g), isEnd_g⟩
      · rintro ⟨g, -, isEnd_g⟩
        exact ⟨g, isEnd_g⟩
  · simp only [pipeclose_files, Sys.setFile_files, isEnd_iff]
    exact fun isEnd_g isEnd_g' => ok.endUnique g g' pi' w' isEnd_g.2 isEnd_g'.2
  · simp only [pipeclose_freed, pipeclose_isOpen, pipeclose_nextPipe, Sys.setFile_freed,
      Sys.setFile_pipes, Sys.setFile_nextPipe, ok.freedOnce pi']
    by_cases here : pi' = pi
    · -- the end was open, so the pipe had not been freed
      subst here
      cases hw : w <;> simp_all [Pipe.isOpen]
    · simp [here]

theorem PipesOk.openPipe (ok : PipesOk s) {f0 f1 : Fin nFile} (apart : f0 ≠ f1)
    (none0 : (s.files f0).type = .none) (none1 : (s.files f1).type = .none) (file0 file1 : File)
    (end0 : file0.isEnd s.nextPipe false) (end1 : file1.isEnd s.nextPipe true)
    (live0 : 0 < file0.ref) (live1 : 0 < file1.ref) :
    PipesOk ((Sys.setFile
      { s with pipes := Function.update s.pipes s.nextPipe ⟨true, true⟩, nextPipe := s.nextPipe + 1 }
      f0 file0).setFile f1 file1) := by
  generalize made : (Sys.setFile
      { s with pipes := Function.update s.pipes s.nextPipe ⟨true, true⟩, nextPipe := s.nextPipe + 1 }
      f0 file0).setFile f1 file1 = s'
  have at0 : s'.files f0 = file0 := by rw [← made]; simp [apart]
  have at1 : s'.files f1 = file1 := by rw [← made]; simp
  have others : ∀ g, g ≠ f0 → g ≠ f1 → s'.files g = s.files g := fun g ne0 ne1 => by
    rw [← made]; simp [ne0, ne1]
  have pipes' : s'.pipes = Function.update s.pipes s.nextPipe ⟨true, true⟩ := by rw [← made]; rfl
  have next' : s'.nextPipe = s.nextPipe + 1 := by rw [← made]; rfl
  -- the pipe ends are the two new files, and the old ends of the old pipes
  have ends : ∀ g pi w, (s'.files g).isEnd pi w ↔
      (g = f0 ∧ pi = s.nextPipe ∧ w = false) ∨ (g = f1 ∧ pi = s.nextPipe ∧ w = true) ∨
        (g ≠ f0 ∧ g ≠ f1 ∧ (s.files g).isEnd pi w) := by
    intro g pi w
    by_cases is0 : g = f0
    · subst is0
      rw [at0, end0.iff]
      simp [apart]
    by_cases is1 : g = f1
    · subst is1
      rw [at1, end1.iff]
      simp [is0]
    rw [others g is0 is1]
    simp [is0, is1]
  have oldBelow : ∀ g pi w, (s.files g).isEnd pi w → pi < s.nextPipe :=
    fun g pi w isEnd_g => isEnd_g.2.1 ▸ ok.pipeBelow g isEnd_g.1
  refine ⟨fun g zero => ?_, fun g pipe => ?_, fun pi w lt => ?_, fun g g' pi w => ?_, fun pi => ?_,
    fun p fd dead => ?_⟩
  · by_cases is0 : g = f0
    · subst is0
      rw [at0] at zero
      omega
    by_cases is1 : g = f1
    · subst is1
      rw [at1] at zero
      omega
    rw [others g is0 is1] at zero ⊢
    exact ok.unusedNone g zero
  · rw [next']
    by_cases is0 : g = f0
    · subst is0
      rw [at0, end0.2.1]
      omega
    by_cases is1 : g = f1
    · subst is1
      rw [at1, end1.2.1]
      omega
    rw [others g is0 is1] at pipe ⊢
    have := ok.pipeBelow g pipe
    omega
  · rw [pipes']
    simp only [ends]
    by_cases new : pi = s.nextPipe
    · subst new
      rw [Function.update_self]
      constructor
      · intro
        cases w
        · exact ⟨f0, .inl ⟨rfl, rfl, rfl⟩⟩
        · exact ⟨f1, .inr (.inl ⟨rfl, rfl, rfl⟩)⟩
      · intro
        cases w <;> rfl
    · have old : pi < s.nextPipe := by omega
      rw [Function.update_of_ne new, ok.openEnd pi w old]
      constructor
      · rintro ⟨g, isEnd_g⟩
        have ne0 : g ≠ f0 := fun same => by simp [same, File.isEnd, none0] at isEnd_g
        have ne1 : g ≠ f1 := fun same => by simp [same, File.isEnd, none1] at isEnd_g
        exact ⟨g, .inr (.inr ⟨ne0, ne1, isEnd_g⟩)⟩
      · rintro ⟨g, ⟨-, same, -⟩ | ⟨-, same, -⟩ | ⟨-, -, isEnd_g⟩⟩
        · exact absurd same new
        · exact absurd same new
        · exact ⟨g, isEnd_g⟩
  · -- two new ends differ in `writable`; a new end and an old one in the pipe
    simp only [ends]
    rintro (⟨g0, p0, w0⟩ | ⟨g1, p1, w1⟩ | ⟨-, -, old⟩) (⟨g0', p0', w0'⟩ | ⟨g1', p1', w1'⟩ | ⟨-, -, old'⟩)
    · exact g0.trans g0'.symm
    · exact absurd (w0.symm.trans w1') Bool.false_ne_true
    · exact absurd (oldBelow _ _ _ old') (by omega)
    · exact absurd (w0'.symm.trans w1) Bool.false_ne_true
    · exact g1.trans g1'.symm
    · exact absurd (oldBelow _ _ _ old') (by omega)
    · exact absurd (oldBelow _ _ _ old) (by omega)
    · exact absurd (oldBelow _ _ _ old) (by omega)
    · exact ok.endUnique g g' pi w old old'
  · have freed' : s'.freed = s.freed := by rw [← made]; rfl
    rw [freed', pipes', next', ok.freedOnce pi]
    by_cases new : pi = s.nextPipe
    · subst new
      simp [Pipe.isOpen]
    · rw [Function.update_of_ne new]
      by_cases old : pi < s.nextPipe
      · simp [old, show pi < s.nextPipe + 1 by omega]
      · simp [old, show ¬pi < s.nextPipe + 1 by omega]
  · have same : s'.ofile = s.ofile ∧ s'.alive = s.alive := by rw [← made]; exact ⟨rfl, rfl⟩
    rw [same.1]
    exact ok.deadClosed p fd (same.2 ▸ dead)

theorem PipesOk.live_of_isEnd (ok : PipesOk s) {pi : Nat} {w : Bool} (isEnd : (s.files f).isEnd pi w) :
    0 < (s.files f).ref := by
  by_contra zero
  have := ok.unusedNone f (by omega)
  simp [File.isEnd, this] at isEnd

theorem PipesOk.setOfile (ok : PipesOk s) (slot : Slot) (x : Option (Fin nFile))
    (alive : x ≠ none → s.alive slot.1 = true) : PipesOk (s.setOfile slot x) := by
  refine ⟨ok.unusedNone, ok.pipeBelow, ok.openEnd, ok.endUnique, ok.freedOnce, fun p fd dead => ?_⟩
  by_cases here : (p, fd) = slot
  · subst here
    simp only [Sys.setOfile_ofile, Function.update_self]
    by_contra filled
    simp [alive filled] at dead
  · simpa [Function.update_of_ne here] using ok.deadClosed p fd dead

theorem PipesOk.setAlive (ok : PipesOk s) (q : Fin nProc) (b : Bool)
    (closed : b = false → ∀ fd, s.ofile (q, fd) = none) :
    PipesOk { s with alive := Function.update s.alive q b } := by
  refine ⟨ok.unusedNone, ok.pipeBelow, ok.openEnd, ok.endUnique, ok.freedOnce, fun p fd dead => ?_⟩
  by_cases here : p = q
  · subst here
    exact closed (by simpa using dead) fd
  · exact ok.deadClosed p fd (by simpa [Function.update_of_ne here] using dead)

end Pipes

section Close

variable {s : Sys} {held : List (Fin nFile)} {f : Fin nFile}

theorem fileclose_keeps (counted : Counted s held) (ok : PipesOk s) (mem : f ∈ held) :
    ∃ s', fileclose s f = .ok s' ∧ Counted s' (held.erase f) ∧ PipesOk s' ∧
      s'.ofile = s.ofile ∧ s'.alive = s.alive := by
  rcases fileclose_cases (counted.live mem) with ⟨more, closed⟩ | ⟨last, plain, closed⟩ | ⟨last, pipe, closed⟩
  · exact ⟨_, closed, counted.drop mem _ rfl, ok.setRef (by omega), rfl, rfl⟩
  · refine ⟨_, closed, counted.drop mem _ (by simp [last]), ok.setPlain _ plain (by simp) (fun _ => rfl), rfl, rfl⟩
  · refine ⟨_, closed, (counted.drop mem _ (by simp [last])).pipeclose _ _, ok.closeEnd pipe, by simp, by simp⟩

theorem fileclose_both {a b : Fin nFile} (counted : Counted s held) (ok : PipesOk s) (mem : a ∈ held)
    (rest : held.erase a = [b]) :
    ∃ s₁ s₂, fileclose s a = .ok s₁ ∧ fileclose s₁ b = .ok s₂ ∧ Counted s₂ [] ∧ PipesOk s₂ ∧
      s₂.alive = s.alive := by
  obtain ⟨s₁, closed₁, counted₁, ok₁, -, alive₁⟩ := fileclose_keeps counted ok mem
  rw [rest] at counted₁
  obtain ⟨s₂, closed₂, counted₂, ok₂, -, alive₂⟩ := fileclose_keeps counted₁ ok₁ (List.mem_singleton_self b)
  exact ⟨s₁, s₂, closed₁, closed₂, by simpa using counted₂, ok₂, alive₂.trans alive₁⟩

end Close

section Calls

variable {s : Sys} {p : Fin nProc}

theorem sysOpen_keeps (inv : Inv s) (alive : s.alive p = true) (omode : Nat) (found device : Bool) :
    ∃ r, sysOpen s p omode found device = .ok r ∧ Inv r.2 := by
  cases found
  · exact ⟨(-1, s), rfl, inv⟩
  rcases filealloc_cases s with none | ⟨f, free, allocated⟩
  · exact ⟨(-1, s), by simp [sysOpen, none], inv⟩
  -- the call holds the new file's one reference until `fdalloc` places it
  have counted₁ := inv.counted.take (f := f) { s.files f with ref := 1 } (by simp [free])
  have ok₁ := inv.pipes.setRef (f := f) Nat.one_pos
  have plain : (s.files f).type = .none := inv.pipes.unusedNone f free
  rcases fdalloc_cases (s.setFile f { s.files f with ref := 1 }) p f with none | ⟨fd, empty, filled⟩
  · obtain ⟨s₂, closed, counted₂, ok₂, -, -⟩ := fileclose_keeps counted₁ ok₁ (List.mem_singleton_self f)
    refine ⟨(-1, s₂), by simp [sysOpen, allocated, none, closed], ?_, ok₂⟩
    simpa using counted₂
  · have counted₂ := counted₁.fill empty (List.mem_singleton_self f)
    have ok₂ := ok₁.setOfile (p, fd) (some f) fun _ => alive
    simp only [List.erase_cons_head] at counted₂
    refine ⟨_, by simp only [sysOpen, allocated, filled, Bool.not_true, Bool.false_eq_true, if_false]; rfl, ?_⟩
    dsimp only
    exact ⟨counted₂.setFile _ rfl fun _ _ => rfl,
      ok₂.setPlain _ (by simp [plain]) (by cases device <;> simp) (by simp)⟩

theorem pipealloc_keeps (counted : Counted s []) (ok : PipesOk s) (kallocOk : Bool) :
    ∃ s', (pipealloc s kallocOk = .ok (none, s') ∧ Counted s' [] ∧ PipesOk s' ∧ s'.alive = s.alive) ∨
      ∃ rf wf, pipealloc s kallocOk = .ok (some (rf, wf), s') ∧ Counted s' [wf, rf] ∧ PipesOk s' ∧
        s'.alive = s.alive ∧ rf ≠ wf ∧ ∀ slot, s.ofile slot ≠ some rf ∧ s.ofile slot ≠ some wf := by
  rcases filealloc_cases s with none₀ | ⟨f0, free₀, allocated₀⟩
  · exact ⟨s, .inl ⟨by simp [pipealloc, none₀], counted, ok, rfl⟩⟩
  set s₁ := s.setFile f0 { s.files f0 with ref := 1 }
  have counted₁ : Counted s₁ [f0] := counted.take _ (by simp [free₀])
  have ok₁ : PipesOk s₁ := ok.setRef Nat.one_pos
  rcases filealloc_cases s₁ with none₁ | ⟨f1, free₁, allocated₁⟩
  · obtain ⟨s₂, closed, counted₂, ok₂, -, alive₂⟩ := fileclose_keeps counted₁ ok₁ (List.mem_singleton_self f0)
    refine ⟨s₂, .inl ⟨by simp [pipealloc, allocated₀, none₁, pipeallocBad, closed], by simpa using counted₂, ok₂,
      by simp [alive₂, s₁]⟩⟩
  -- the second file is another one: the first has a reference
  have apart : f0 ≠ f1 := fun same => by simp [s₁, ← same] at free₁
  set s₂ := s₁.setFile f1 { s₁.files f1 with ref := 1 }
  have counted₂ : Counted s₂ [f1, f0] := counted₁.take _ (by simp [free₁])
  have ok₂ : PipesOk s₂ := ok₁.setRef Nat.one_pos
  cases kallocOk
  · -- `kalloc` failed: both files are closed again
    obtain ⟨s₃, s₄, closed₃, closed₄, counted₄, ok₄, alive₄⟩ :=
      fileclose_both (b := f1) counted₂ ok₂ (List.mem_cons_of_mem f1 (List.mem_singleton_self f0))
        (by simp [List.erase_cons_tail, apart.symm])
    exact ⟨s₄, .inl ⟨by simp [pipealloc, allocated₀, allocated₁, pipeallocBad, closed₃, closed₄], counted₄, ok₄,
      by rw [alive₄]; rfl⟩⟩
  · -- `kalloc` gave the pipe: the two files become its ends
    have free₁' : (s.files f1).ref = 0 := by simpa [s₁, Function.update_of_ne apart.symm] using free₁
    have none₀ : (s₂.files f0).type = .none := by
      simpa [s₂, s₁, Function.update_of_ne apart] using ok.unusedNone f0 free₀
    have none₁ : (s₂.files f1).type = .none := by simpa [s₂] using ok₁.unusedNone f1 free₁
    refine ⟨_, .inr ⟨f0, f1, by simp only [pipealloc, allocated₀, allocated₁, Bool.not_true,
      Bool.false_eq_true, if_false]; rfl, ?_, ?_, by rfl, apart, fun slot =>
        ⟨(counted.unreferenced free₀).1 slot, (counted.unreferenced free₁').1 slot⟩⟩⟩
    · exact (counted₂.setFile _ (by rfl) fun _ _ => rfl).setFile _ (by rfl) fun _ _ => rfl
    · exact ok₂.openPipe apart none₀ none₁ _ _ ⟨rfl, rfl, rfl⟩ ⟨rfl, rfl, rfl⟩ (by simp [s₂, s₁, apart])
        (by simp [s₂, Function.update_of_ne apart.symm])

theorem sysPipe_keeps (inv : Inv s) (alive : s.alive p = true) (kallocOk copyOk0 copyOk1 : Bool) :
    ∃ r, sysPipe s p kallocOk copyOk0 copyOk1 = .ok r ∧ Inv r.2 := by
  obtain ⟨s₁, ⟨made, counted₁, ok₁, -⟩ | ⟨rf, wf, made, counted₁, ok₁, alive₁, apart, -⟩⟩ :=
    pipealloc_keeps inv.counted inv.pipes kallocOk
  · exact ⟨(-1, s₁), by simp [sysPipe, made], counted₁, ok₁⟩
  have alive₁' : s₁.alive p = true := by rw [alive₁]; exact alive
  have erased : [wf, rf].erase rf = [wf] := by simp [apart.symm]
  rcases fdalloc_cases s₁ p rf with none₀ | ⟨fd0, empty₀, filled₀⟩
  · -- no descriptor for the read end: both files are closed
    obtain ⟨s₂, s₃, closed₂, closed₃, counted₃, ok₃, -⟩ := fileclose_both counted₁ ok₁ (by simp) erased
    exact ⟨(-1, s₃), by simp [sysPipe, made, none₀, closed₂, closed₃], counted₃, ok₃⟩
  set s₂ := s₁.setOfile (p, fd0) (some rf)
  have counted₂ : Counted s₂ [wf] := erased ▸ counted₁.fill empty₀ (by simp)
  have ok₂ : PipesOk s₂ := ok₁.setOfile _ _ fun _ => alive₁'
  have points₀ : s₂.ofile (p, fd0) = some rf := by simp [s₂]
  rcases fdalloc_cases s₂ p wf with none₁ | ⟨fd1, empty₁, filled₁⟩
  · -- no descriptor for the write end: the read end's is cleared, both files closed
    obtain ⟨s₄, s₅, closed₄, closed₅, counted₅, ok₅, -⟩ := fileclose_both (counted₂.clear points₀)
      (ok₂.setOfile _ none fun filled => absurd rfl filled) List.mem_cons_self (List.erase_cons_head rf [wf])
    exact ⟨(-1, s₅), by simp [sysPipe, made, filled₀, none₁, closed₄, closed₅], counted₅, ok₅⟩
  set s₃ := s₂.setOfile (p, fd1) (some wf)
  have counted₃ : Counted s₃ [] := List.erase_cons_head wf [] ▸ counted₂.fill empty₁ (List.mem_singleton_self wf)
  have ok₃ : PipesOk s₃ := ok₂.setOfile _ _ fun _ => alive₁'
  by_cases failed : (!copyOk0) = true ∨ (!copyOk1) = true
  · -- a `copyout` failed: both descriptors are cleared and both files closed
    have apartFd : (p, fd1) ≠ (p, fd0) := fun same => by
      rw [same, points₀] at empty₁
      cases empty₁
    have points₀' : s₃.ofile (p, fd0) = some rf := by simp [s₃, apartFd.symm, points₀]
    have points₁ : (s₃.setOfile (p, fd0) none).ofile (p, fd1) = some wf := by simp [s₃, apartFd]
    have cleared := (counted₃.clear points₀').clear points₁
    have okCleared := (ok₃.setOfile (p, fd0) none fun filled => absurd rfl filled).setOfile (p, fd1) none
      fun filled => absurd rfl filled
    obtain ⟨s₆, s₇, closed₆, closed₇, counted₇, ok₇, -⟩ := fileclose_both cleared okCleared (by simp) erased
    refine ⟨(-1, s₇), ?_, counted₇, ok₇⟩
    simp only [sysPipe, made, filled₀, filled₁, Machine.ok_bind]
    rw [if_pos failed]
    simp [closed₆, closed₇]
  · refine ⟨(0, s₃), ?_, counted₃, ok₃⟩
    simp only [sysPipe, made, filled₀, filled₁, Machine.ok_bind]
    rw [if_neg failed]
    rfl

theorem sysDup_keeps (inv : Inv s) (alive : s.alive p = true) (fd : Int) :
    ∃ r, sysDup s p fd = .ok r ∧ Inv r.2 := by
  cases found : argfd s p fd with
  | none => exact ⟨(-1, s), by simp [sysDup, found], inv⟩
  | some opened =>
    obtain ⟨slot, f⟩ := opened
    have live := inv.counted.live_of_ofile (argfd_some found)
    rcases fdalloc_cases s p f with none | ⟨fd', empty, filled⟩
    · exact ⟨(-1, s), by simp [sysDup, found, none], inv⟩
    have counted := (inv.counted.take (f := f) { s.files f with ref := (s.files f).ref + 1 } rfl).fill empty
      (List.mem_singleton_self f)
    rw [List.erase_cons_head] at counted
    have ok := (inv.pipes.setRef (f := f) (Nat.succ_pos (s.files f).ref)).setOfile (p, fd') (some f)
      fun _ => alive
    exact ⟨(((fd' : Nat) : Int), (s.setOfile (p, fd') (some f)).setFile f { s.files f with ref := (s.files f).ref + 1 }),
      by simp [sysDup, found, filled, filedup_live (s := s.setOfile (p, fd') (some f)) live], counted, ok⟩

theorem sysClose_keeps (inv : Inv s) (fd : Int) : ∃ r, sysClose s p fd = .ok r ∧ Inv r.2 := by
  cases found : argfd s p fd with
  | none => exact ⟨(-1, s), by simp [sysClose, found], inv⟩
  | some opened =>
    obtain ⟨slot, f⟩ := opened
    obtain ⟨s', closed, counted, ok, -, -⟩ := fileclose_keeps (f := f) (inv.counted.clear (argfd_some found))
      (inv.pipes.setOfile _ none fun filled => absurd rfl filled) List.mem_cons_self
    exact ⟨(0, s'), by simp [sysClose, found, closed], by simpa using counted, ok⟩

theorem fork_keeps {c : Fin nProc} (inv : Inv s) (dead : s.alive c = false) :
    ∃ s', fork s p c = .ok s' ∧ Inv s' := by
  -- the loop carries the invariant, and the child's descriptors still to come are empty
  let P : List (Fin nOFile) → Sys → Prop := fun rest s =>
    rest.Nodup ∧ Inv s ∧ s.alive c = true ∧ ∀ fd ∈ rest, s.ofile (c, fd) = none
  have pass : ∀ x rest s, P (x :: rest) s → ∃ s', forkFile p c s x = .ok s' ∧ P rest s' := by
    rintro x rest s ⟨nodup, inv, aliveC, empty⟩
    have fresh : x ∉ rest := (List.nodup_cons.mp nodup).1
    cases points : s.ofile (p, x) with
    | none =>
        exact ⟨s, by simp [forkFile, points], (List.nodup_cons.mp nodup).2, inv, aliveC,
          fun fd mem => empty fd (List.mem_cons_of_mem x mem)⟩
    | some f =>
        have live := inv.counted.live_of_ofile points
        have counted := (inv.counted.take (f := f) { s.files f with ref := (s.files f).ref + 1 } rfl).fill
          (empty x List.mem_cons_self) (List.mem_singleton_self f)
        rw [List.erase_cons_head] at counted
        have ok := (inv.pipes.setRef (f := f) (Nat.succ_pos (s.files f).ref)).setOfile (c, x) (some f)
          fun _ => aliveC
        refine ⟨_, by simp [forkFile, points, filedup_live live], (List.nodup_cons.mp nodup).2, ⟨counted, ok⟩,
          aliveC, fun fd mem => ?_⟩
        have apart : (c, fd) ≠ (c, x) := fun same => fresh (by simp_all)
        simpa [Function.update_of_ne apart] using empty fd (List.mem_cons_of_mem x mem)
  have start : P (List.finRange nOFile) { s with alive := Function.update s.alive c true } :=
    ⟨List.nodup_finRange nOFile, ⟨inv.counted, inv.pipes.setAlive c true fun no => absurd no (by decide)⟩,
      by simp, fun fd _ => inv.pipes.deadClosed c fd dead⟩
  obtain ⟨s', ran, -, inv', -⟩ := Machine.foldlM_run pass _ _ start
  exact ⟨s', ran, inv'⟩

theorem exit_keeps (inv : Inv s) : ∃ s', exit s p = .ok s' ∧ Inv s' := by
  -- the loop carries the invariant, and the descriptors already passed are empty
  let P : List (Fin nOFile) → Sys → Prop := fun rest s => Inv s ∧ ∀ fd, fd ∉ rest → s.ofile (p, fd) = none
  have pass : ∀ x rest s, P (x :: rest) s → ∃ s', exitFile p s x = .ok s' ∧ P rest s' := by
    rintro x rest s ⟨inv, passed⟩
    cases points : s.ofile (p, x) with
    | none =>
        refine ⟨s, by simp [exitFile, points], inv, fun fd out => ?_⟩
        by_cases here : fd = x
        · exact here ▸ points
        · exact passed fd (by simp [here, out])
    | some f =>
        obtain ⟨s', closed, counted, ok, ofile', -⟩ := fileclose_keeps (f := f) (inv.counted.clear points)
          (inv.pipes.setOfile _ none fun filled => absurd rfl filled) List.mem_cons_self
        rw [fileclose_setOfile] at closed
        obtain ⟨s₁, closed₁, rfl⟩ := Machine.map_eq_ok closed
        refine ⟨_, by simp [exitFile, points, closed₁], ⟨by simpa using counted, ok⟩, fun fd out => ?_⟩
        rw [ofile']
        by_cases here : fd = x
        · simp [here]
        · simpa [here] using passed fd (by simp [here, out])
  obtain ⟨s', ran, inv', closed⟩ := Machine.foldlM_run pass _ _ ⟨inv, fun fd out => absurd (List.mem_finRange fd) out⟩
  exact ⟨{ s' with alive := Function.update s'.alive p false }, by simp [exit, ran], inv'.counted,
    inv'.pipes.setAlive p false fun _ fd => closed fd List.not_mem_nil⟩

end Calls

section Runs

variable {s : Sys}

theorem call_keeps (inv : Inv s) (p : Fin nProc) (call : Except String (Int × Sys))
    (keeps : s.alive p = true → ∃ r, call = .ok r ∧ Inv r.2) :
    ∃ s', (if s.alive p then call.map (·.2) else .ok s) = .ok s' ∧ Inv s' := by
  by_cases alive : s.alive p = true
  · obtain ⟨r, ran, inv'⟩ := keeps alive
    exact ⟨r.2, by simp [alive, ran, Except.map], inv'⟩
  · exact ⟨s, by simp [alive], inv⟩

theorem step_keeps (inv : Inv s) (e : Event) : ∃ s', step s e = .ok s' ∧ Inv s' := by
  cases e with
  | «open» p omode found device => exact call_keeps inv p _ fun alive => sysOpen_keeps inv alive omode found device
  | pipe p kallocOk copyOk0 copyOk1 =>
      exact call_keeps inv p _ fun alive => sysPipe_keeps inv alive kallocOk copyOk0 copyOk1
  | dup p fd => exact call_keeps inv p _ fun alive => sysDup_keeps inv alive fd
  | close p fd => exact call_keeps inv p _ fun _ => sysClose_keeps inv fd
  | fork p c =>
      by_cases free : s.alive p = true ∧ s.alive c = false
      · obtain ⟨s', ran, inv'⟩ := fork_keeps (p := p) inv free.2
        exact ⟨s', by simp [step, free, ran], inv'⟩
      · refine ⟨s, ?_, inv⟩
        simp only [step]
        rw [if_neg (by simpa using free)]
  | exit p =>
      by_cases alive : s.alive p = true
      · obtain ⟨s', ran, inv'⟩ := exit_keeps (p := p) inv
        exact ⟨s', by simp [step, alive, ran], inv'⟩
      · exact ⟨s, by simp [step, alive], inv⟩

theorem inv_boot : Inv boot := by
  have noEnd : ∀ f pi w, ¬(boot.files f).isEnd pi w := fun _ _ _ isEnd => by cases isEnd.1
  have noRefs : ∀ f, Count.refs boot.ofile f = 0 := fun _ => Count.refs_eq_zero.mpr fun _ held => by cases held
  refine ⟨fun f => by rw [noRefs]; rfl, ⟨fun _ _ => rfl, fun f pipe => (by cases pipe),
    fun _ _ below => absurd below (Nat.not_lt_zero _), fun f _ pi w isEnd => absurd isEnd (noEnd f pi w),
    fun _ => by simp [boot], fun _ _ _ => rfl⟩⟩

theorem Reachable.inv (reached : Reachable s) : Inv s :=
  Machine.Reachable.of_keeps inv_boot (fun s e s' inv stepped => by
    obtain ⟨s'', stepped', inv'⟩ := step_keeps inv e
    rw [stepped] at stepped'
    cases stepped'
    exact inv') reached

end Runs

section Counts

variable {s : Sys}

/-- Reference counting of open files: in every reachable state each file's
`ref` is the number of descriptors that point to it; `filealloc`, and each of
the two `filealloc`s of `pipealloc`, takes only a file no descriptor points
to; `kfree` has run on a pipe once, and never twice, exactly when both its
ends are closed; and an end is open exactly while a file with a reference is
that end. -/
theorem open_file_refs_counted (reached : Reachable s) :
    (∀ f, (s.files f).ref = Count.refs s.ofile f) ∧
    (∀ f s', filealloc s = (some f, s') → ∀ slot, s.ofile slot ≠ some f) ∧
    (∀ kallocOk rf wf s', pipealloc s kallocOk = .ok (some (rf, wf), s') →
      rf ≠ wf ∧ ∀ slot, s.ofile slot ≠ some rf ∧ s.ofile slot ≠ some wf) ∧
    (∀ pi, s.freed pi ≤ 1 ∧
      (s.freed pi = 1 ↔ pi < s.nextPipe ∧ (s.pipes pi).readopen = false ∧ (s.pipes pi).writeopen = false)) ∧
    (∀ pi, pi < s.nextPipe →
      ((s.pipes pi).readopen = true ↔ ∃ f, 0 < (s.files f).ref ∧ (s.files f).isEnd pi false) ∧
      ((s.pipes pi).writeopen = true ↔ ∃ f, 0 < (s.files f).ref ∧ (s.files f).isEnd pi true)) := by
  have inv := reached.inv
  have ends : ∀ pi w, pi < s.nextPipe →
      ((s.pipes pi).isOpen w = true ↔ ∃ f, 0 < (s.files f).ref ∧ (s.files f).isEnd pi w) := by
    intro pi w below
    rw [inv.pipes.openEnd pi w below]
    exact ⟨fun ⟨f, isEnd⟩ => ⟨f, inv.pipes.live_of_isEnd isEnd, isEnd⟩, fun ⟨f, _, isEnd⟩ => ⟨f, isEnd⟩⟩
  refine ⟨fun f => by simpa using inv.counted f, fun f s' allocated slot => ?_,
    fun kallocOk rf wf s' made => ?_, fun pi => ?_, fun pi below => ⟨ends pi false below, ends pi true below⟩⟩
  · rcases filealloc_cases s with none | ⟨g, free, allocated'⟩
    · rw [none] at allocated
      cases allocated
    · rw [allocated'] at allocated
      cases allocated
      exact (inv.counted.unreferenced free).1 slot
  · obtain ⟨s'', ⟨made', -⟩ | ⟨rf', wf', made', -, -, -, apart, free⟩⟩ :=
      pipealloc_keeps inv.counted inv.pipes kallocOk
    · rw [made'] at made
      cases made
    · rw [made'] at made
      cases made
      exact ⟨apart, free⟩
  · rw [inv.pipes.freedOnce pi]
    simp only [Pipe.isOpen, Bool.false_eq_true, if_false, if_true]
    split_ifs with closed <;> simp [closed]

/-- The table after process 0's `pipe()`, both descriptors copied out. -/
def pipedSys : Sys :=
  match step boot (.pipe 0 true true true) with
  | .ok s => s
  | .error _ => boot

theorem pipedSys_reached : Reachable pipedSys := by
  have stepped : step boot (.pipe 0 true true true) = .ok pipedSys := by
    rfl
  exact .step _ .init stepped

theorem open_file_refs_counted_piped :
    (∀ f, (pipedSys.files f).ref = Count.refs pipedSys.ofile f) ∧
    (∀ f s', filealloc pipedSys = (some f, s') → ∀ slot, pipedSys.ofile slot ≠ some f) ∧
    (∀ kallocOk rf wf s', pipealloc pipedSys kallocOk = .ok (some (rf, wf), s') →
      rf ≠ wf ∧ ∀ slot, pipedSys.ofile slot ≠ some rf ∧ pipedSys.ofile slot ≠ some wf) ∧
    (∀ pi, pipedSys.freed pi ≤ 1 ∧
      (pipedSys.freed pi = 1 ↔ pi < pipedSys.nextPipe ∧ (pipedSys.pipes pi).readopen = false ∧
        (pipedSys.pipes pi).writeopen = false)) ∧
    (∀ pi, pi < pipedSys.nextPipe →
      ((pipedSys.pipes pi).readopen = true ↔ ∃ f, 0 < (pipedSys.files f).ref ∧ (pipedSys.files f).isEnd pi false) ∧
      ((pipedSys.pipes pi).writeopen = true ↔ ∃ f, 0 < (pipedSys.files f).ref ∧ (pipedSys.files f).isEnd pi true)) :=
  open_file_refs_counted pipedSys_reached

/-- No system call from a reachable state panics: `filedup` and `fileclose`
are only called on files with references. -/
theorem file_calls_never_panic (reached : Reachable s) (e : Event) : ∃ s', step s e = .ok s' := by
  obtain ⟨s', stepped, -⟩ := step_keeps reached.inv e
  exact ⟨s', stepped⟩

theorem file_calls_never_panic_piped : ∃ s', step pipedSys (.close 0 0) = .ok s' :=
  file_calls_never_panic pipedSys_reached (.close 0 0)

end Counts

end Xv6.Files
