import Mathlib
import Xv6.Library.Ring

/-!
The input side of `kernel/console.c`: the 128-byte ring `cons.buf` with its
free-running uint indices `r` (read), `w` (write: the end of the committed
input) and `e` (edit: the end of the line being typed). `consoleintr` edits
the line and commits it on a newline, a `^D` or a full buffer; `consoleread`
takes committed bytes and copies them out one by one. Both hold `cons.lock`
except while `consoleread` sleeps, so, as for pipes, every interleaving is a
sequence of whole `consoleintr` calls and single iterations of
`consoleread`'s loop. The echo to the display (`consputc`) is left out.

The ghost lists record the bytes committed to the reader, the bytes
`consoleread` removed from the ring, the bytes its `copyout` placed in a
reader's memory, and the values the calls returned.
-/

namespace Xv6.Console

/-- `INPUT_BUF_SIZE`. -/
def inputBufSize : Nat := 128

/-- `C(x)`: control-`x`. -/
def ctrl (x : Char) : UInt8 := (x.toNat - '@'.toNat).toUInt8

/-- `'\n'`. -/
def newline : UInt8 := 10

/-- `'\r'`. -/
def carriageReturn : UInt8 := 13

/-- `'\x7f'`, the delete key. -/
def delete : UInt8 := 0x7f

/-- The input fields of `cons`. -/
structure Cons where
  buf : Nat → UInt8
  r : UInt32
  w : UInt32
  e : UInt32

/-- `cons.buf[i % INPUT_BUF_SIZE]`. -/
def Cons.get (s : Cons) (i : UInt32) : UInt8 := s.buf (i % 128).toNat

/-- The `while` loop of `^U`: erase the line back to a newline, never past
`w`. Each pass lowers `e - w`, so `e - w` passes are enough. -/
def killLine : Nat → Cons → Cons
  | 0, s => s
  | fuel + 1, s =>
      if s.e ≠ s.w ∧ s.get (s.e - 1) ≠ newline then killLine fuel { s with e := s.e - 1 } else s

/-- `consoleintr(c)` for an input byte `c`. -/
def consoleintr (c : UInt8) (s : Cons) : Cons :=
  if c = ctrl 'P' then s
  else if c = ctrl 'U' then killLine (s.e - s.w).toNat s
  else if c = ctrl 'H' ∨ c = delete then
    if s.e ≠ s.w then { s with e := s.e - 1 } else s
  else if c ≠ 0 ∧ s.e - s.r < 128 then
    let c := if c = carriageReturn then newline else c
    let s := { s with buf := Function.update s.buf (s.e % 128).toNat c, e := s.e + 1 }
    -- a whole line, an end of file or a full buffer is committed to the reader
    if c = newline ∨ c = ctrl 'D' ∨ s.e - s.r = 128 then { s with w := s.e } else s
  else s

/-- The local variables of a `consoleread(user_dst, dst, n)` call, with whether
`either_copyout` to `dst` succeeds for each byte it copies. -/
structure Reader where
  copyOk : Nat → Bool
  target : Int
  n : Int

/-- How an iteration of the loop ends. -/
inductive Next where
  | next (state : Reader)
  | sleep
  | ret (value : Int)

/-- One iteration: the new `cons`, how the call goes on, the byte taken from
the ring and the byte copied out. -/
structure Iter where
  cons : Cons
  next : Next
  taken : Option UInt8
  copied : Option UInt8

/-- One iteration of `consoleread`'s `while(n > 0)` loop: a pass of the inner
loop that waits for committed input, or the take of one byte. The byte leaves
the ring (`cons.r++`) before `either_copyout` is tried, as in the C code. -/
def consolereadIter (s : Cons) (rd : Reader) (killed : Bool) : Iter :=
  if 0 < rd.n then
    if s.r = s.w then
      if killed then ⟨s, .ret (-1), none, none⟩ else ⟨s, .sleep, none, none⟩
    else
      let c := s.get s.r
      let taken := { s with r := s.r + 1 }
      if c = ctrl 'D' then
        -- a `^D` after data stays in the ring, so that the next read returns 0
        if rd.n < rd.target then ⟨{ taken with r := taken.r - 1 }, .ret (rd.target - rd.n), none, none⟩
        else ⟨taken, .ret (rd.target - rd.n), some c, none⟩
      else if rd.copyOk (rd.target - rd.n).toNat then
        if c = newline then ⟨taken, .ret (rd.target - (rd.n - 1)), some c, some c⟩
        else ⟨taken, .next { rd with n := rd.n - 1 }, some c, some c⟩
      else ⟨taken, .ret (rd.target - rd.n), some c, none⟩
  else ⟨s, .ret (rd.target - rd.n), none, none⟩

/-- The console, the `consoleread` calls in progress, and the ghost logs. -/
structure Sys where
  cons : Cons
  calls : Nat → Option Reader
  committed : List UInt8
  taken : List UInt8
  delivered : List UInt8
  returned : List Int

inductive Event where
  | consoleintr (c : UInt8)
  | consoleread (id : Nat) (copyOk : Nat → Bool) (n : Int)
  | run (id : Nat) (killed : Bool)

/-- The bytes `count` positions on from `head` in the ring. -/
def Cons.span (s : Cons) (head : UInt32) (count : Nat) : List UInt8 :=
  Ring.contents inputBufSize s.buf head.toNat count

def step (s : Sys) : Event → Sys
  | .consoleintr c =>
      let cons := consoleintr c s.cons
      { s with cons := cons,
               committed := s.committed ++ cons.span s.cons.w (cons.w - s.cons.w).toNat }
  | .consoleread id copyOk n =>
      if s.calls id = none then
        { s with calls := Function.update s.calls id (some ⟨copyOk, n, n⟩) }
      else s
  | .run id killed =>
      match s.calls id with
      | none => s
      | some rd =>
          let it := consolereadIter s.cons rd killed
          let calls := match it.next with
            | .next rd' => some rd'
            | .sleep => some rd
            | .ret _ => none
          let returned := match it.next with
            | .ret v => [v]
            | _ => []
          { s with cons := it.cons, calls := Function.update s.calls id calls,
                   taken := s.taken ++ it.taken.toList, delivered := s.delivered ++ it.copied.toList,
                   returned := s.returned ++ returned }

def runAll (s : Sys) : List Event → Sys
  | [] => s
  | e :: rest => runAll (step s e) rest

/-- The console at boot: `cons` is zeroed static data. -/
def boot : Sys :=
  { cons := { buf := fun _ => 0, r := 0, w := 0, e := 0 }, calls := fun _ => none,
    committed := [], taken := [], delivered := [], returned := [] }

/-- The committed bytes not yet read, oldest first. -/
def Cons.buffered (s : Cons) : List UInt8 := s.span s.r (s.w - s.r).toNat

section Counters

/-- The indices as the C code compares them: `w` is at most `e` past `r`,
and `e` at most `INPUT_BUF_SIZE` past `r`, in uint differences. -/
structure Cons.Indexed (s : Cons) : Prop where
  committed_le : (s.w - s.r).toNat ≤ (s.e - s.r).toNat
  edited_le : (s.e - s.r).toNat ≤ inputBufSize

theorem toNat_sub_eq_mod (a b : UInt32) : (a - b).toNat = (2 ^ 32 - b.toNat + a.toNat) % 2 ^ 32 :=
  UInt32.toNat_sub a b

theorem toNat_ne_of_ne {a b : UInt32} (ne : a ≠ b) : a.toNat ≠ b.toNat := fun same =>
  ne (UInt32.toNat_inj.mp same)

/-- The uncommitted line is the rest of the edited span past `w`. -/
theorem edit_sub_commit {s : Cons} (indexed : s.Indexed) :
    (s.e - s.w).toNat = (s.e - s.r).toNat - (s.w - s.r).toNat := by
  have := indexed.committed_le
  have := s.r.toNat_lt
  have := s.w.toNat_lt
  have := s.e.toNat_lt
  simp only [toNat_sub_eq_mod] at *
  omega

theorem edited_after_append {s : Cons} (room : s.e - s.r < 128) :
    (s.e + 1 - s.r).toNat = (s.e - s.r).toNat + 1 ∧ (s.e - s.r).toNat < inputBufSize := by
  have lt : (s.e - s.r).toNat < 128 := UInt32.lt_iff_toNat_lt.mp room
  have := s.r.toNat_lt
  have := s.e.toNat_lt
  simp only [toNat_sub_eq_mod, UInt32.toNat_add, UInt32.toNat_one, inputBufSize] at *
  omega

theorem edited_after_erase {s : Cons} (indexed : s.Indexed) (uncommitted : s.e ≠ s.w) :
    (s.e - 1 - s.r).toNat = (s.e - s.r).toNat - 1 ∧ (s.w - s.r).toNat < (s.e - s.r).toNat := by
  have := indexed.committed_le
  have := indexed.edited_le
  have := toNat_ne_of_ne uncommitted
  have := s.r.toNat_lt
  have := s.w.toNat_lt
  have := s.e.toNat_lt
  simp only [toNat_sub_eq_mod, UInt32.toNat_one, inputBufSize] at *
  omega

theorem spans_after_take {s : Cons} (indexed : s.Indexed) (held : s.r ≠ s.w) :
    0 < (s.w - s.r).toNat ∧ (s.w - (s.r + 1)).toNat = (s.w - s.r).toNat - 1 ∧
      (s.e - (s.r + 1)).toNat = (s.e - s.r).toNat - 1 := by
  have := indexed.committed_le
  have := indexed.edited_le
  have := toNat_ne_of_ne held
  have := s.r.toNat_lt
  have := s.w.toNat_lt
  have := s.e.toNat_lt
  simp only [toNat_sub_eq_mod, UInt32.toNat_add, UInt32.toNat_one, inputBufSize] at *
  omega

theorem dist_succ (head e : UInt32) (small : (e - head).toNat < inputBufSize) :
    (e + 1 - head).toNat = (e - head).toNat + 1 := by
  have := head.toNat_lt
  have := e.toNat_lt
  simp only [toNat_sub_eq_mod, UInt32.toNat_add, UInt32.toNat_one, inputBufSize] at *
  omega

theorem slot_eq (i : UInt32) : (i % 128).toNat = i.toNat % inputBufSize := by
  rw [UInt32.toNat_mod]
  rfl

theorem slot_succ (i : UInt32) : (i + 1).toNat % inputBufSize = (i.toNat + 1) % inputBufSize :=
  Ring.toNat_succ_mod (by decide) i

theorem slot_of_dist {a b : UInt32} {d : Nat} (dist : (b - a).toNat = d) :
    (a.toNat + d) % inputBufSize = b.toNat % inputBufSize := by
  rw [← Ring.toNat_sub_eq dist, Nat.mod_mod_of_dvd _ (by decide : inputBufSize ∣ 2 ^ 32)]

end Counters

section Editing

variable {s : Cons}

theorem Cons.Indexed.erase (indexed : s.Indexed) (uncommitted : s.e ≠ s.w) :
    ({ s with e := s.e - 1 } : Cons).Indexed := by
  obtain ⟨shrunk, below⟩ := edited_after_erase indexed uncommitted
  have := indexed.edited_le
  exact ⟨by simp only [shrunk]; omega, by simp only [shrunk]; omega⟩

theorem killLine_spec (fuel : Nat) (s : Cons) (indexed : s.Indexed) :
    (killLine fuel s).buf = s.buf ∧ (killLine fuel s).r = s.r ∧ (killLine fuel s).w = s.w ∧
      (killLine fuel s).Indexed := by
  induction fuel generalizing s with
  | zero => exact ⟨rfl, rfl, rfl, indexed⟩
  | succ fuel ih =>
      unfold killLine
      split
      · rename_i erasing
        exact ih _ (indexed.erase erasing.1)
      · exact ⟨rfl, rfl, rfl, indexed⟩

theorem buffered_append (indexed : s.Indexed) :
    s.span s.r (s.e - s.r).toNat = s.buffered ++ s.span s.w (s.e - s.w).toNat := by
  have split := @Ring.contents_append UInt8 inputBufSize s.buf s.r.toNat (s.w - s.r).toNat (s.e - s.w).toNat
  have head : Ring.contents inputBufSize s.buf s.w.toNat (s.e - s.w).toNat =
      Ring.contents inputBufSize s.buf (s.r.toNat + (s.w - s.r).toNat) (s.e - s.w).toNat :=
    Ring.contents_congr_mod s.buf (slot_of_dist rfl).symm _
  rw [Cons.buffered, Cons.span, Cons.span, Cons.span, head, ← split, edit_sub_commit indexed,
    Nat.add_sub_cancel' indexed.committed_le]

theorem span_update_at_edit (room : (s.e - s.r).toNat < inputBufSize) (c : UInt8)
    (count : Nat) (within : count ≤ (s.e - s.r).toNat) :
    Ring.contents inputBufSize (Function.update s.buf (s.e % 128).toNat c) s.r.toNat count =
      s.span s.r count := by
  rw [slot_eq, ← slot_of_dist rfl]
  exact Ring.contents_update_beyond s.buf s.r.toNat count _ c within room

theorem span_push (head : UInt32) (c : UInt8) (room : (s.e - head).toNat < inputBufSize) :
    Ring.contents inputBufSize (Function.update s.buf (s.e % 128).toNat c) head.toNat ((s.e - head).toNat + 1) =
      s.span head (s.e - head).toNat ++ [c] := by
  rw [slot_eq, ← slot_of_dist rfl]
  exact Ring.contents_push s.buf head.toNat _ c room

theorem consoleintr_spec (c : UInt8) (indexed : s.Indexed) :
    (consoleintr c s).r = s.r ∧ (consoleintr c s).Indexed ∧
      (consoleintr c s).buffered = s.buffered ++ (consoleintr c s).span s.w ((consoleintr c s).w - s.w).toNat := by
  unfold consoleintr
  split
  · simp [Cons.span, Ring.contents, indexed]
  split
  · obtain ⟨buf, r, w, killed⟩ := killLine_spec (s.e - s.w).toNat s indexed
    refine ⟨r, killed, ?_⟩
    simp [Cons.buffered, Cons.span, Ring.contents, buf, r, w]
  split
  · split
    · rename_i uncommitted
      exact ⟨rfl, indexed.erase uncommitted, by simp [Cons.buffered, Cons.span, Ring.contents]⟩
    · simp [Cons.span, Ring.contents, indexed]
  split
  · rename_i typed
    obtain ⟨grown, room⟩ := edited_after_append typed.2
    have line : (s.e - s.w).toNat < inputBufSize := by
      rw [edit_sub_commit indexed]
      omega
    dsimp only
    generalize (if c = carriageReturn then newline else c) = c
    split
    · -- the line is committed: `w` moves to the new `e`
      refine ⟨rfl, ⟨by simp [grown], by simpa [grown] using room⟩, ?_⟩
      simp only [Cons.buffered, Cons.span, grown, dist_succ s.w s.e line]
      rw [span_push s.r _ room, span_push s.w _ line, buffered_append indexed, List.append_assoc]
      rfl
    · have := indexed.committed_le
      refine ⟨rfl, ⟨by simp only [grown]; omega, by simpa [grown] using room⟩, ?_⟩
      simp only [Cons.buffered, Cons.span, sub_self, UInt32.toNat_zero, Ring.contents, List.append_nil]
      exact span_update_at_edit room _ _ indexed.committed_le
  · simp [Cons.span, Ring.contents, indexed]

end Editing

section Reading

variable {s : Cons}

theorem buffered_take (indexed : s.Indexed) (held : s.r ≠ s.w) :
    ({ s with r := s.r + 1 } : Cons).Indexed ∧
      s.buffered = s.get s.r :: ({ s with r := s.r + 1 } : Cons).buffered := by
  obtain ⟨positive, committed, edited⟩ := spans_after_take indexed held
  have := indexed.committed_le
  have := indexed.edited_le
  refine ⟨⟨by simp only [committed, edited]; omega, by simp only [edited]; omega⟩, ?_⟩
  obtain ⟨rest, count⟩ : ∃ rest, (s.w - s.r).toNat = rest + 1 := ⟨_, (Nat.succ_pred_eq_of_pos positive).symm⟩
  have next : (s.w - (s.r + 1)).toNat = rest := by omega
  simp only [Cons.buffered, Cons.span, count, next, Ring.contents_pop, Cons.get, slot_eq]
  rw [Ring.contents_congr_mod s.buf (slot_succ s.r)]

theorem consolereadIter_cases (rd : Reader) (killed : Bool) :
    let it := consolereadIter s rd killed
    it.cons.buf = s.buf ∧ it.cons.w = s.w ∧ it.cons.e = s.e ∧
      ((it.taken = none ∧ it.cons.r = s.r ∧ it.copied = none) ∨
        (s.r ≠ s.w ∧ it.taken = some (s.get s.r) ∧ it.cons.r = s.r + 1 ∧
          (it.copied = none ∨ it.copied = some (s.get s.r)))) := by
  unfold consolereadIter
  split
  · split
    · split <;> exact ⟨rfl, rfl, rfl, .inl ⟨rfl, rfl, rfl⟩⟩
    · rename_i held
      dsimp only
      split
      · split
        · -- the pushed-back `^D` leaves `r` where it was
          exact ⟨rfl, rfl, rfl, .inl ⟨rfl, by simp, rfl⟩⟩
        · exact ⟨rfl, rfl, rfl, .inr ⟨held, rfl, rfl, .inl rfl⟩⟩
      · split
        · split <;> exact ⟨rfl, rfl, rfl, .inr ⟨held, rfl, rfl, .inr rfl⟩⟩
        · exact ⟨rfl, rfl, rfl, .inr ⟨held, rfl, rfl, .inl rfl⟩⟩
  · exact ⟨rfl, rfl, rfl, .inl ⟨rfl, rfl, rfl⟩⟩

end Reading

section Invariant

/-- The indices stay in range, and the committed input is what was read,
then what is still buffered. -/
structure Inv (s : Sys) : Prop where
  indexed : s.cons.Indexed
  fifo : s.committed = s.taken ++ s.cons.buffered

theorem inv_boot : Inv boot := ⟨⟨by decide, by decide⟩, rfl⟩

/-- A `consoleread` iteration keeps the invariant. -/
theorem inv_run (s : Sys) (rd : Reader) (killed : Bool) (inv : Inv s) :
    (consolereadIter s.cons rd killed).cons.Indexed ∧
      s.committed = (s.taken ++ (consolereadIter s.cons rd killed).taken.toList) ++
        (consolereadIter s.cons rd killed).cons.buffered := by
  obtain ⟨buf, w, e, same | ⟨held, took, stepped, -⟩⟩ := consolereadIter_cases (s := s.cons) rd killed
  · obtain ⟨none, r, -⟩ := same
    have unchanged : (consolereadIter s.cons rd killed).cons = s.cons := by
      cases h : (consolereadIter s.cons rd killed).cons
      simp_all
    rw [unchanged, none]
    exact ⟨inv.indexed, by simpa using inv.fifo⟩
  · have moved : (consolereadIter s.cons rd killed).cons = { s.cons with r := s.cons.r + 1 } := by
      cases h : (consolereadIter s.cons rd killed).cons
      simp_all
    obtain ⟨indexed, popped⟩ := buffered_take inv.indexed held
    rw [moved, took]
    exact ⟨indexed, by rw [inv.fifo, popped]; simp⟩

theorem inv_step (s : Sys) (ev : Event) (inv : Inv s) : Inv (step s ev) := by
  cases ev with
  | consoleintr c =>
      obtain ⟨r, indexed, grown⟩ := consoleintr_spec c inv.indexed
      exact ⟨indexed, by simp only [step, grown, inv.fifo, List.append_assoc]⟩
  | consoleread id copyOk n =>
      simp only [step]
      split
      · exact ⟨inv.indexed, inv.fifo⟩
      · exact inv
  | run id killed =>
      simp only [step]
      split
      · exact inv
      · rename_i rd _
        obtain ⟨indexed, fifo⟩ := inv_run s rd killed inv
        exact ⟨indexed, fifo⟩

theorem inv_runAll (s : Sys) (events : List Event) (inv : Inv s) : Inv (runAll s events) := by
  induction events generalizing s with
  | nil => exact inv
  | cons ev rest ih => exact ih (step s ev) (inv_step s ev inv)

/-- In every run the indices satisfy `r <= w <= e <= r + INPUT_BUF_SIZE` as
uint differences, and the committed input is what readers took, in order,
followed by what is buffered: editing never reaches past `w`. -/
theorem console_indices_fifo (events : List Event) :
    ((runAll boot events).cons.w - (runAll boot events).cons.r).toNat ≤
        ((runAll boot events).cons.e - (runAll boot events).cons.r).toNat ∧
      ((runAll boot events).cons.e - (runAll boot events).cons.r).toNat ≤ inputBufSize ∧
      (runAll boot events).committed = (runAll boot events).taken ++ (runAll boot events).cons.buffered := by
  obtain ⟨⟨committed, edited⟩, fifo⟩ := inv_runAll boot events inv_boot
  exact ⟨committed, edited, fifo⟩

end Invariant

section CopyoutFailure

/-- A `consoleread` whose first `either_copyout` fails takes the oldest
committed byte out of `cons.buf`, copies nothing and returns 0: the byte is
gone from the ring, which is where every later read takes its bytes from, and
no reader has received it. -/
theorem copyout_failure_loses_byte (s : Sys) (inv : Inv s) {id : Nat} {copyOk : Nat → Bool} {n : Int}
    (killed : Bool) (idle : s.calls id = none) (held : s.cons.r ≠ s.cons.w)
    (notEof : s.cons.get s.cons.r ≠ ctrl 'D') (positive : 0 < n) (fails : copyOk 0 = false) :
    (runAll s [.consoleread id copyOk n, .run id killed]).taken = s.taken ++ [s.cons.get s.cons.r] ∧
      (runAll s [.consoleread id copyOk n, .run id killed]).delivered = s.delivered ∧
      (runAll s [.consoleread id copyOk n, .run id killed]).returned = s.returned ++ [0] ∧
      (runAll s [.consoleread id copyOk n, .run id killed]).calls id = none ∧
      s.cons.buffered = s.cons.get s.cons.r :: (runAll s [.consoleread id copyOk n, .run id killed]).cons.buffered ∧
      (runAll s [.consoleread id copyOk n, .run id killed]).committed = s.committed := by
  have iter : consolereadIter s.cons ⟨copyOk, n, n⟩ killed =
      ⟨{ s.cons with r := s.cons.r + 1 }, .ret 0, some (s.cons.get s.cons.r), none⟩ := by
    simp [consolereadIter, positive, held, notEof, fails]
  have ran : runAll s [.consoleread id copyOk n, .run id killed] =
      { s with cons := { s.cons with r := s.cons.r + 1 },
               calls := Function.update (Function.update s.calls id (some ⟨copyOk, n, n⟩)) id none,
               taken := s.taken ++ [s.cons.get s.cons.r], returned := s.returned ++ [0] } := by
    simp [runAll, step, idle, iter]
  rw [ran]
  exact ⟨rfl, by simp, rfl, by simp, (buffered_take inv.indexed held).2, rfl⟩

/-- The line `ab\n` typed at the console after boot. -/
def typedLine : Sys := runAll boot [.consoleintr 97, .consoleintr 98, .consoleintr 10]

theorem copyout_failure_loses_byte_typedLine :
    (runAll typedLine [.consoleread 0 (fun _ => false) 3, .run 0 false]).taken =
        typedLine.taken ++ [typedLine.cons.get typedLine.cons.r] ∧
      (runAll typedLine [.consoleread 0 (fun _ => false) 3, .run 0 false]).delivered = typedLine.delivered ∧
      (runAll typedLine [.consoleread 0 (fun _ => false) 3, .run 0 false]).returned = typedLine.returned ++ [0] ∧
      (runAll typedLine [.consoleread 0 (fun _ => false) 3, .run 0 false]).calls 0 = none ∧
      typedLine.cons.buffered = typedLine.cons.get typedLine.cons.r ::
        (runAll typedLine [.consoleread 0 (fun _ => false) 3, .run 0 false]).cons.buffered ∧
      (runAll typedLine [.consoleread 0 (fun _ => false) 3, .run 0 false]).committed = typedLine.committed :=
  copyout_failure_loses_byte typedLine (inv_runAll boot _ inv_boot) false (by decide) (by decide) (by decide)
    (by decide) rfl

end CopyoutFailure

end Xv6.Console
