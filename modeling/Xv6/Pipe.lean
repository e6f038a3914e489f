import Mathlib
import Xv6.Library.Ring

/-!
`kernel/pipe.c`: a pipe is a 512-byte ring indexed by the free-running uint
counters `nread` and `nwrite`. `pipewrite` and `piperead` hold `pi->lock` except
inside `sleep`, and each iteration of their loops is a consistent update of the
pipe, so every interleaving of the calls is a sequence of single iterations.
The system below lets any pending call run its next iteration at any time and
lets `killed` be read as anything; sleeping, wakeups and the scheduler only
restrict which of these sequences happen. The ghost lists record the bytes a
writer's `copyin` put into the ring, the bytes `piperead` removed from it and
the bytes its `copyout` placed in a reader's memory.
-/

namespace Xv6.Pipes

def pipeSize : Nat := 512

/-- `struct pipe` without its spinlock. -/
structure Pipe where
  data : Nat → UInt8
  nread : UInt32
  nwrite : UInt32
  readopen : Bool
  writeopen : Bool

/-- The pipe `pipealloc` builds in a page from `kalloc`, which fills it with 5. -/
def pipealloc : Pipe :=
  { data := fun _ => 5, nread := 0, nwrite := 0, readopen := true, writeopen := true }

/-- `pipeclose(pi, writable)`, up to the `kfree` of a pipe whose ends are both closed. -/
def pipeclose (p : Pipe) (writable : Bool) : Pipe :=
  if writable then { p with writeopen := false } else { p with readopen := false }

/-- The local variables of a `pipewrite(pi, addr, n)` call, with the bytes that
`copyin` finds at `addr + i` (`none` where it fails). -/
structure Writer where
  src : Nat → Option UInt8
  n : Int
  i : Nat

/-- The local variables of a `piperead(pi, addr, n)` call, with whether
`copyout` to `addr + i` succeeds; `copying` is set once the call has left the
loop that waits for data. -/
structure Reader where
  copyOk : Nat → Bool
  n : Int
  i : Nat
  copying : Bool

/-- How a loop iteration ends. -/
inductive Next (σ : Type) where
  | next (state : σ)
  | sleep
  | ret (value : Int)

/-- One loop iteration: the new pipe, how the call goes on, and the byte that
the iteration moved into or out of the ring. -/
structure Iter (σ : Type) where
  pipe : Pipe
  next : Next σ
  moved : Option UInt8

/-- One iteration of the `while(i < n)` loop of `pipewrite`. Leaving the loop,
by `break` or by the test, returns `i`. -/
def pipewriteIter (p : Pipe) (w : Writer) (killed : Bool) : Iter Writer :=
  if (w.i : Int) < w.n then
    if p.readopen = false ∨ killed then ⟨p, .ret (-1), none⟩
    else if p.nwrite = p.nread + 512 then ⟨p, .sleep, none⟩
    else
      match w.src w.i with
      | none => ⟨p, .ret w.i, none⟩
      | some ch =>
          ⟨{ p with data := Function.update p.data (p.nwrite % 512).toNat ch,
                    nwrite := p.nwrite + 1 },
            .next { w with i := w.i + 1 }, some ch⟩
  else ⟨p, .ret w.i, none⟩

/-- One iteration of `piperead`: a pass of the loop that waits while the pipe is
empty and its write end open, or of the copy loop. The byte at `nread` is
taken before `copyout` is tried, as the C code does. -/
def pipereadIter (p : Pipe) (r : Reader) (killed : Bool) : Iter Reader :=
  if r.copying = false then
    if p.nread = p.nwrite ∧ p.writeopen = true then
      if killed then ⟨p, .ret (-1), none⟩ else ⟨p, .sleep, none⟩
    else ⟨p, .next { r with copying := true }, none⟩
  else if (r.i : Int) < r.n then
    if p.nread = p.nwrite then ⟨p, .ret r.i, none⟩
    else
      let ch := p.data (p.nread % 512).toNat
      let taken := { p with nread := p.nread + 1 }
      if r.copyOk r.i then ⟨taken, .next { r with i := r.i + 1 }, some ch⟩
      else ⟨taken, .ret r.i, some ch⟩
  else ⟨p, .ret r.i, none⟩

inductive Call where
  | writer (w : Writer)
  | reader (r : Reader)

/-- One pipe, the calls in progress on it, and the ghost byte histories. -/
structure Sys where
  pipe : Pipe
  calls : Nat → Option Call
  accepted : List UInt8
  taken : List UInt8
  delivered : List UInt8

inductive Event where
  | pipewrite (id : Nat) (src : Nat → Option UInt8) (n : Int)
  | piperead (id : Nat) (copyOk : Nat → Bool) (n : Int)
  | run (id : Nat) (killed : Bool)
  | pipeclose (writable : Bool)

/-- The call that continues after an iteration, if any. -/
def resume {σ : Type} (wrap : σ → Call) (old : σ) : Next σ → Option Call
  | .next state => some (wrap state)
  | .sleep => some (wrap old)
  | .ret _ => none

def step (s : Sys) : Event → Sys
  | .pipewrite id src n =>
      if s.calls id = none then
        { s with calls := Function.update s.calls id (some (.writer ⟨src, n, 0⟩)) }
      else s
  | .piperead id copyOk n =>
      if s.calls id = none then
        { s with calls := Function.update s.calls id (some (.reader ⟨copyOk, n, 0, false⟩)) }
      else s
  | .run id killed =>
      match s.calls id with
      | none => s
      | some (.writer w) =>
          let it := pipewriteIter s.pipe w killed
          { s with pipe := it.pipe, calls := Function.update s.calls id (resume .writer w it.next),
                   accepted := s.accepted ++ it.moved.toList }
      | some (.reader r) =>
          let it := pipereadIter s.pipe r killed
          let copied := match it.next with
            | .next _ => it.moved.toList
            | _ => []
          { s with pipe := it.pipe, calls := Function.update s.calls id (resume .reader r it.next),
                   taken := s.taken ++ it.moved.toList, delivered := s.delivered ++ copied }
  | .pipeclose writable => { s with pipe := pipeclose s.pipe writable }

def runAll (s : Sys) : List Event → Sys
  | [] => s
  | e :: rest => runAll (step s e) rest

/-- A pipe just made by `pipealloc`, with no calls on it. -/
def fresh : Sys :=
  { pipe := pipealloc, calls := fun _ => none, accepted := [], taken := [], delivered := [] }

/-- The bytes in the ring, oldest first: `count` slots from position `head`. -/
def contents (data : Nat → UInt8) (head : Nat) : Nat → List UInt8
  | 0 => []
  | count + 1 => contents data head count ++ [data ((head + count) % pipeSize)]

/-- `nwrite - nread` as the uint the C code compares. -/
def Pipe.count (p : Pipe) : Nat := (p.nwrite - p.nread).toNat

def Pipe.buffered (p : Pipe) : List UInt8 := contents p.data p.nread.toNat p.count

section Ring

/-- The pipe's ring is a ring of `PIPESIZE` slots. -/
theorem contents_eq (data : Nat → UInt8) (head count : Nat) :
    contents data head count = Ring.contents pipeSize data head count := by
  induction count with
  | zero => rfl
  | succ count ih => rw [contents, Ring.contents, ih]

theorem contents_length (data : Nat → UInt8) (head count : Nat) :
    (contents data head count).length = count := by
  rw [contents_eq]
  exact Ring.contents_length data head count

theorem contents_congr_mod (data : Nat → UInt8) {head head' : Nat}
    (same : head % pipeSize = head' % pipeSize) (count : Nat) :
    contents data head count = contents data head' count := by
  rw [contents_eq, contents_eq]
  exact Ring.contents_congr_mod data same count

theorem contents_push (data : Nat → UInt8) (head count : Nat) (ch : UInt8)
    (room : count < pipeSize) :
    contents (Function.update data ((head + count) % pipeSize) ch) head (count + 1) =
      contents data head count ++ [ch] := by
  rw [contents_eq, contents_eq]
  exact Ring.contents_push data head count ch room

theorem contents_pop (data : Nat → UInt8) (head count : Nat) :
    contents data head (count + 1) =
      data (head % pipeSize) :: contents data (head + 1) count := by
  rw [contents_eq, contents_eq]
  exact Ring.contents_pop data head count

end Ring

section Counters

theorem write_slot (p : Pipe) : (p.nwrite % 512).toNat = (p.nread.toNat + p.count) % pipeSize := by
  rw [UInt32.toNat_mod, Pipe.count, UInt32.toNat_sub]
  have := p.nwrite.toNat_lt
  have := p.nread.toNat_lt
  simp only [UInt32.reduceToNat, pipeSize]
  omega

theorem read_slot (p : Pipe) : (p.nread % 512).toNat = p.nread.toNat % pipeSize := by
  rw [UInt32.toNat_mod]
  rfl

theorem succ_position (x : UInt32) : (x + 1).toNat % pipeSize = (x.toNat + 1) % pipeSize :=
  Ring.toNat_succ_mod (by norm_num [pipeSize]) x

theorem count_after_write (p : Pipe) (bounded : p.count ≤ pipeSize)
    (notFull : p.nwrite ≠ p.nread + 512) :
    p.count < pipeSize ∧ (p.nwrite + 1 - p.nread).toNat = p.count + 1 := by
  have notFullCount : p.count ≠ 512 := by
    intro full
    apply notFull
    have : p.nwrite - p.nread = 512 := UInt32.toNat_inj.mp (by simpa [Pipe.count] using full)
    grind
  have shift : p.nwrite + 1 - p.nread = (p.nwrite - p.nread) + 1 := by grind
  have room : p.count < pipeSize := by unfold pipeSize at bounded ⊢; omega
  refine ⟨room, ?_⟩
  rw [shift, UInt32.toNat_add]
  simp only [Pipe.count, pipeSize] at room ⊢
  simp only [UInt32.reduceToNat]
  omega

theorem count_after_read (p : Pipe) (notEmpty : p.nread ≠ p.nwrite) :
    0 < p.count ∧ (p.nwrite - (p.nread + 1)).toNat = p.count - 1 := by
  have held : p.nwrite - p.nread ≠ 0 := by grind
  have positive : 0 < p.count := by
    rcases Nat.eq_zero_or_pos p.count with zero | pos
    · exact absurd (UInt32.toNat_inj.mp (by simpa [Pipe.count] using zero)) held
    · exact pos
  have shift : p.nwrite - (p.nread + 1) = (p.nwrite - p.nread) - 1 := by grind
  refine ⟨positive, ?_⟩
  rw [shift, UInt32.toNat_sub]
  have := (p.nwrite - p.nread).toNat_lt
  simp only [Pipe.count] at positive ⊢
  simp only [UInt32.reduceToNat]
  omega

theorem buffered_push (p : Pipe) (ch : UInt8) (bounded : p.count ≤ pipeSize)
    (notFull : p.nwrite ≠ p.nread + 512) :
    let pushed := { p with data := Function.update p.data (p.nwrite % 512).toNat ch,
                           nwrite := p.nwrite + 1 }
    pushed.count ≤ pipeSize ∧ pushed.buffered = p.buffered ++ [ch] := by
  obtain ⟨room, grown⟩ := count_after_write p bounded notFull
  have counted : ({ p with data := Function.update p.data (p.nwrite % 512).toNat ch,
                           nwrite := p.nwrite + 1 } : Pipe).count = p.count + 1 := grown
  refine ⟨by omega, ?_⟩
  simp only [Pipe.buffered, counted]
  rw [write_slot, contents_push _ _ _ _ room]

theorem buffered_pop (p : Pipe) (notEmpty : p.nread ≠ p.nwrite) :
    let popped := { p with nread := p.nread + 1 }
    popped.count = p.count - 1 ∧
      p.buffered = p.data (p.nread % 512).toNat :: popped.buffered := by
  obtain ⟨positive, shrunk⟩ := count_after_read p notEmpty
  refine ⟨shrunk, ?_⟩
  obtain ⟨held, rest⟩ : ∃ held, p.count = held + 1 := ⟨p.count - 1, by omega⟩
  have counted : ({ p with nread := p.nread + 1 } : Pipe).count = held := by
    simp only [Pipe.count] at shrunk rest ⊢
    omega
  simp only [Pipe.buffered, counted, rest, contents_pop, read_slot]
  rw [contents_congr_mod p.data (succ_position p.nread).symm]

end Counters

section Invariant

theorem pipewriteIter_cases (p : Pipe) (w : Writer) (killed : Bool) :
    ((pipewriteIter p w killed).moved = none ∧ (pipewriteIter p w killed).pipe = p) ∨
      ∃ ch, (pipewriteIter p w killed).moved = some ch ∧ p.nwrite ≠ p.nread + 512 ∧
        (pipewriteIter p w killed).pipe =
          { p with data := Function.update p.data (p.nwrite % 512).toNat ch,
                   nwrite := p.nwrite + 1 } := by
  unfold pipewriteIter
  split
  · split
    · exact .inl ⟨rfl, rfl⟩
    · split
      · exact .inl ⟨rfl, rfl⟩
      · rename_i notFull
        split
        · exact .inl ⟨rfl, rfl⟩
        · exact .inr ⟨_, rfl, notFull, rfl⟩
  · exact .inl ⟨rfl, rfl⟩

theorem pipereadIter_cases (p : Pipe) (r : Reader) (killed : Bool) :
    ((pipereadIter p r killed).moved = none ∧ (pipereadIter p r killed).pipe = p) ∨
      (p.nread ≠ p.nwrite ∧ (pipereadIter p r killed).moved = some (p.data (p.nread % 512).toNat) ∧
        (pipereadIter p r killed).pipe = { p with nread := p.nread + 1 }) := by
  unfold pipereadIter
  split
  · split
    · split <;> exact .inl ⟨rfl, rfl⟩
    · exact .inl ⟨rfl, rfl⟩
  · split
    · split
      · exact .inl ⟨rfl, rfl⟩
      · rename_i notEmpty
        split <;> exact .inr ⟨notEmpty, rfl, rfl⟩
    · exact .inl ⟨rfl, rfl⟩

/-- Bytes pass through the ring in order: every byte taken out was written
before every byte still held, and readers receive a subsequence of the bytes
taken out. -/
structure Inv (s : Sys) : Prop where
  bounded : s.pipe.count ≤ pipeSize
  fifo : s.taken ++ s.pipe.buffered = s.accepted
  received : s.delivered.Sublist s.taken

theorem inv_fresh : Inv fresh := by
  refine ⟨?_, ?_, List.Sublist.slnil⟩ <;> decide

theorem inv_pipewrite_iter (s : Sys) (w : Writer) (killed : Bool) (id : Nat) (inv : Inv s) :
    let it := pipewriteIter s.pipe w killed
    Inv { s with pipe := it.pipe, calls := Function.update s.calls id (resume .writer w it.next),
                 accepted := s.accepted ++ it.moved.toList } := by
  rcases pipewriteIter_cases s.pipe w killed with ⟨none, same⟩ | ⟨ch, moved, notFull, pushed⟩
  · exact ⟨by simpa [same] using inv.bounded, by simpa [same, none] using inv.fifo,
      inv.received⟩
  · obtain ⟨bounded, grown⟩ := buffered_push s.pipe ch inv.bounded notFull
    refine ⟨by simpa [pushed] using bounded, ?_, inv.received⟩
    simp only [pushed, moved, Option.toList_some]
    rw [grown, ← List.append_assoc, inv.fifo]

theorem inv_piperead_iter (s : Sys) (r : Reader) (killed : Bool) (id : Nat) (inv : Inv s) :
    let it := pipereadIter s.pipe r killed
    let copied := match it.next with
      | .next _ => it.moved.toList
      | _ => []
    Inv { s with pipe := it.pipe, calls := Function.update s.calls id (resume .reader r it.next),
                 taken := s.taken ++ it.moved.toList, delivered := s.delivered ++ copied } := by
  intro it copied
  have delivered : (s.delivered ++ copied).Sublist (s.taken ++ it.moved.toList) := by
    simp only [copied]
    split
    · exact inv.received.append (List.Sublist.refl _)
    · rw [List.append_nil]
      exact inv.received.trans (List.sublist_append_left _ _)
  rcases pipereadIter_cases s.pipe r killed with ⟨none, same⟩ | ⟨notEmpty, moved, popped⟩
  · refine ⟨by simpa [it, same] using inv.bounded, ?_, delivered⟩
    simpa [it, same, none] using inv.fifo
  · obtain ⟨shrunk, unfolded⟩ := buffered_pop s.pipe notEmpty
    refine ⟨?_, ?_, delivered⟩
    · simp only [it, popped, shrunk]
      exact le_trans (Nat.sub_le _ _) inv.bounded
    · simp only [it, popped, moved, Option.toList_some]
      rw [List.append_assoc, List.singleton_append, ← unfolded, inv.fifo]

theorem inv_step (s : Sys) (e : Event) (inv : Inv s) : Inv (step s e) := by
  cases e with
  | pipewrite id src n =>
      simp only [step]
      split
      · exact ⟨inv.bounded, inv.fifo, inv.received⟩
      · exact inv
  | piperead id copyOk n =>
      simp only [step]
      split
      · exact ⟨inv.bounded, inv.fifo, inv.received⟩
      · exact inv
  | run id killed =>
      simp only [step]
      split
      · exact inv
      · exact inv_pipewrite_iter s _ killed id inv
      · exact inv_piperead_iter s _ killed id inv
  | pipeclose writable =>
      simp only [step, pipeclose]
      split
      · exact ⟨inv.bounded, inv.fifo, inv.received⟩
      · exact ⟨inv.bounded, inv.fifo, inv.received⟩

theorem inv_runAll (s : Sys) (events : List Event) (inv : Inv s) : Inv (runAll s events) := by
  induction events generalizing s with
  | nil => exact inv
  | cons e rest ih => exact ih (step s e) (inv_step s e inv)

/-- Whatever the interleaving of calls, kills and closes on a pipe: the ring
never holds more than `PIPESIZE` bytes, the bytes taken out of it followed by
those it holds are exactly the bytes written into it, and readers receive a
subsequence of the bytes taken out. -/
theorem pipe_ring_fifo (events : List Event) :
    (runAll fresh events).pipe.count ≤ pipeSize ∧
      (runAll fresh events).taken ++ (runAll fresh events).pipe.buffered =
        (runAll fresh events).accepted ∧
      (runAll fresh events).delivered.Sublist (runAll fresh events).taken := by
  have inv := inv_runAll fresh events inv_fresh
  exact ⟨inv.bounded, inv.fifo, inv.received⟩

/-- Every `copyout` of every `piperead` in the run succeeds. -/
def CopyoutsSucceed (events : List Event) : Prop :=
  ∀ id copyOk n, Event.piperead id copyOk n ∈ events → ∀ i, copyOk i = true

/-- With a `copyout` that cannot fail, an iteration that takes a byte goes on
with the next one, so the byte is delivered. -/
theorem pipereadIter_delivers (p : Pipe) (r : Reader) (killed : Bool)
    (ok : ∀ i, r.copyOk i = true) :
    (pipereadIter p r killed).moved = none ∨ ∃ r', (pipereadIter p r killed).next = .next r' := by
  unfold pipereadIter
  split_ifs <;> simp_all

theorem pipereadIter_copyOk {p : Pipe} {r r' : Reader} {killed : Bool}
    (continues : (pipereadIter p r killed).next = .next r') : r'.copyOk = r.copyOk := by
  unfold pipereadIter at continues
  split at continues
  · split at continues
    · split at continues <;> cases continues
    · cases continues; rfl
  · split at continues
    · split at continues
      · cases continues
      · split at continues
        · cases continues; rfl
        · cases continues
    · cases continues

/-- The pending readers of a run whose copyouts succeed have received every
byte taken out so far. -/
structure Reliable (s : Sys) : Prop where
  nothingLost : s.delivered = s.taken
  readersOk : ∀ id r, s.calls id = some (.reader r) → ∀ i, r.copyOk i = true

/-- Replacing call `id` keeps every pending reader's `copyout`s succeeding when
the new call's do. -/
theorem readersOk_update {calls : Nat → Option Call}
    (old : ∀ id r, calls id = some (.reader r) → ∀ i, r.copyOk i = true) (id : Nat) {c : Option Call}
    (new : ∀ r, c = some (.reader r) → ∀ i, r.copyOk i = true) :
    ∀ id' r, Function.update calls id c id' = some (.reader r) → ∀ i, r.copyOk i = true := by
  intro id' r found
  by_cases same : id' = id
  · subst same
    rw [Function.update_self] at found
    exact new r found
  · rw [Function.update_of_ne same] at found
    exact old id' r found

theorem reliable_step (s : Sys) (e : Event) (rel : Reliable s)
    (ok : ∀ id copyOk n, e = .piperead id copyOk n → ∀ i, copyOk i = true) :
    Reliable (step s e) := by
  cases e with
  | pipewrite id src n =>
      simp only [step]
      split
      · exact ⟨rel.nothingLost, readersOk_update rel.readersOk id fun r found => by cases found⟩
      · exact rel
  | piperead id copyOk n =>
      simp only [step]
      split
      · refine ⟨rel.nothingLost, readersOk_update rel.readersOk id fun r found => ?_⟩
        simp only [Option.some.injEq, Call.reader.injEq] at found
        subst found
        exact ok _ _ _ rfl
      · exact rel
  | run id killed =>
      simp only [step]
      split
      · exact rel
      · rename_i w _
        refine ⟨rel.nothingLost, readersOk_update rel.readersOk id fun r found => ?_⟩
        cases next : (pipewriteIter s.pipe w killed).next <;> simp [resume, next] at found
      · rename_i r called
        have callerOk := rel.readersOk id r called
        refine ⟨?_, readersOk_update rel.readersOk id fun r' found => ?_⟩
        · have copiedAll : (match (pipereadIter s.pipe r killed).next with
              | .next _ => (pipereadIter s.pipe r killed).moved.toList
              | _ => []) = (pipereadIter s.pipe r killed).moved.toList := by
            rcases pipereadIter_delivers s.pipe r killed callerOk with nothing | ⟨r', next⟩
            · split <;> simp [nothing]
            · simp [next]
          simp only
          rw [copiedAll, rel.nothingLost]
        · cases next : (pipereadIter s.pipe r killed).next with
          | next r'' =>
              simp only [resume, next, Option.some.injEq, Call.reader.injEq] at found
              subst found
              rw [pipereadIter_copyOk next]
              exact callerOk
          | sleep =>
              simp only [resume, next, Option.some.injEq, Call.reader.injEq] at found
              subst found
              exact callerOk
          | ret v => simp [resume, next] at found
  | pipeclose writable =>
      simp only [step]
      exact ⟨rel.nothingLost, rel.readersOk⟩

/-- When no `copyout` fails, nothing is lost or duplicated: the bytes readers
received followed by those still in the ring are exactly the bytes written. -/
theorem pipe_conserves_bytes (events : List Event) (succeed : CopyoutsSucceed events) :
    (runAll fresh events).delivered ++ (runAll fresh events).pipe.buffered =
      (runAll fresh events).accepted := by
  have reliable : ∀ s, Reliable s → ∀ events, CopyoutsSucceed events →
      Reliable (runAll s events) := by
    intro s rel events
    induction events generalizing s with
    | nil => intro _; exact rel
    | cons e rest ih =>
        intro succeed
        apply ih (step s e) _ (fun id copyOk n mem => succeed id copyOk n (.tail _ mem))
        exact reliable_step s e rel fun id copyOk n same => succeed id copyOk n (same ▸ .head _)
  have rel := reliable fresh ⟨rfl, fun _ _ none => by cases none⟩ events succeed
  rw [rel.nothingLost]
  exact (inv_runAll fresh events inv_fresh).fifo

/-- A writer puts `"ab"` into the pipe; a reader whose buffer is mapped asks
for one byte. -/
def copiedByte : List Event :=
  [.pipewrite 0 (fun i => if i = 0 then some 97 else if i = 1 then some 98 else none) 2,
   .run 0 false, .run 0 false, .run 0 false,
   .piperead 1 (fun _ => true) 1, .run 1 false, .run 1 false]

theorem copiedByte_succeed : CopyoutsSucceed copiedByte := by
  intro id copyOk n member i
  simp [copiedByte] at member
  obtain ⟨-, rfl, -⟩ := member
  rfl

theorem pipe_conserves_bytes_copied :
    CopyoutsSucceed copiedByte ∧
      (runAll fresh copiedByte).delivered ++ (runAll fresh copiedByte).pipe.buffered =
        (runAll fresh copiedByte).accepted :=
  ⟨copiedByte_succeed, pipe_conserves_bytes copiedByte copiedByte_succeed⟩

end Invariant

/-- A writer puts `"ab"` into the pipe; a reader whose buffer is not mapped
asks for one byte; a second reader asks for one byte. -/
def droppedByte : List Event :=
  [.pipewrite 0 (fun i => if i = 0 then some 97 else if i = 1 then some 98 else none) 2,
   .run 0 false, .run 0 false, .run 0 false,
   .piperead 1 (fun _ => false) 1, .run 1 false, .run 1 false,
   .piperead 2 (fun _ => true) 1, .run 2 false, .run 2 false]

/-- `piperead` increments `nread` before its `copyout`: the failed read consumes
`'a'`, so the second reader gets `'b'`, which is not a prefix of `"ab"`, and one
byte is neither delivered nor in the ring. -/
theorem droppedByte_lost :
    ¬ (runAll fresh droppedByte).delivered <+: (runAll fresh droppedByte).accepted ∧
      (runAll fresh droppedByte).delivered.length + (runAll fresh droppedByte).pipe.count ≠
        (runAll fresh droppedByte).accepted.length := by
  decide

end Xv6.Pipes
