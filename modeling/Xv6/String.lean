import Mathlib
import Xv6.Library.Bytes

/-!
The routines of `kernel/string.c` that the file system calls, over byte
memories: a C string is the bytes from an offset up to the first zero byte.
`memset` is `Bytes.fill`. `memmove`, and the `memmove` of `user/ulib.c`,
move the bytes as `Bytes.copy` does for every overlap of the two ranges
(`memmove_overlap_safe`), so the rest of the development uses `Bytes.copy`.
-/

namespace Xv6

open Bytes

/-- `strncmp(p, q, n)`: walk while bytes remain, `*p` is not NUL and `*p == *q`;
then `0` if the bytes ran out, else `(uchar)*p - (uchar)*q`. -/
def strncmp (m : Mem) (p : Nat) (m' : Mem) (q : Nat) : Nat → Int
  | 0 => 0
  | n + 1 =>
      if m p ≠ 0 ∧ m p = m' q then strncmp m (p + 1) m' (q + 1) n
      else (m p).toNat - (m' q).toNat

/-- `strncpy(s, t, n)`: copy bytes of `t` up to and including its NUL, at most
`n`, then zero the rest of the `n` bytes. -/
def strncpy (dst : Mem) (s : Nat) (src : Mem) (t : Nat) : Nat → Mem
  | 0 => dst
  | n + 1 =>
      if src t ≠ 0 then strncpy (Function.update dst s (src t)) (s + 1) src (t + 1) n
      else fill (Function.update dst s (src t)) (s + 1) n 0

/-- The strings at `p` and `q` agree on their first `n` bytes, up to and
including the first NUL: what `strncmp` returning `0` means. -/
def StrEq (m : Mem) (p : Nat) (m' : Mem) (q : Nat) (n : Nat) : Prop :=
  ∀ i < n, (∀ j < i, m (p + j) ≠ 0) → m (p + i) = m' (q + i)

theorem strncmp_eq_zero_iff (m : Mem) (p : Nat) (m' : Mem) (q : Nat) (n : Nat) :
    strncmp m p m' q n = 0 ↔ StrEq m p m' q n := by
  induction n generalizing p q with
  | zero => simp [strncmp, StrEq]
  | succ n ih =>
      rw [strncmp]
      split
      · rename_i same
        rw [ih]
        constructor
        · intro rest i below before
          rcases i with _ | i
          · exact same.2
          · have shifted := rest i (by omega) fun j lt => by
              simpa [Nat.add_assoc, Nat.add_comm 1 j] using before (j + 1) (by omega)
            simpa [Nat.add_assoc, Nat.add_comm 1 i] using shifted
        · intro all i below before
          have shifted := all (i + 1) (by omega) fun j lt => by
            rcases j with _ | j
            · simpa using same.1
            · simpa [Nat.add_assoc, Nat.add_comm 1 j] using before j (by omega)
          simpa [Nat.add_assoc, Nat.add_comm 1 i] using shifted
      · rename_i differ
        constructor
        · intro zero
          have bytes : (m p).toNat = (m' q).toNat := by omega
          have equal : m p = m' q := UInt8.toNat_inj.mp bytes
          intro i below before
          rcases i with _ | i
          · simpa using equal
          · exact absurd (by simpa using before 0 (by omega)) (fun nz => differ ⟨nz, equal⟩)
        · intro agree
          have equal : m p = m' q := by simpa using agree 0 (by omega) (by simp)
          rw [equal]
          simp

/-- `strlen(s)` inside a buffer of `n` bytes: the bytes before the first NUL,
and `n` when none of them is NUL, where the C loop would read past the buffer. -/
def strlen (m : Mem) (p : Nat) : Nat → Nat
  | 0 => 0
  | n + 1 => if m p = 0 then 0 else strlen m (p + 1) n + 1

theorem strlen_le (m : Mem) (p n : Nat) : strlen m p n ≤ n := by
  induction n generalizing p with
  | zero => exact Nat.le_refl 0
  | succ n ih =>
      rw [strlen]
      split_ifs
      · omega
      · have := ih (p + 1)
        omega

/-- No byte before `strlen` is NUL, and inside the buffer the byte at it is. -/
theorem strlen_spec (m : Mem) (p n : Nat) :
    (∀ i < strlen m p n, m (p + i) ≠ 0) ∧ (strlen m p n < n → m (p + strlen m p n) = 0) := by
  induction n generalizing p with
  | zero => simp [strlen]
  | succ n ih =>
      rw [strlen]
      split_ifs with nul
      · simp [nul]
      · obtain ⟨before, atEnd⟩ := ih (p + 1)
        constructor
        · intro i lt
          rcases i with _ | i
          · simpa using nul
          · simpa [Nat.add_assoc, Nat.add_comm 1 i] using before i (by omega)
        · intro lt
          simpa [Nat.add_assoc, Nat.add_comm 1] using atEnd (by omega)

theorem strlen_eq {m : Mem} {p n k : Nat} (inside : k ≤ n) (before : ∀ i < k, m (p + i) ≠ 0)
    (nul : k < n → m (p + k) = 0) : strlen m p n = k := by
  obtain ⟨nonzero, atEnd⟩ := strlen_spec m p n
  have bound := strlen_le m p n
  rcases Nat.lt_trichotomy (strlen m p n) k with short | same | long
  · exact absurd (atEnd (by omega)) (before _ short)
  · exact same
  · exact absurd (nul (by omega)) (nonzero k long)

theorem strncpy_apply (dst : Mem) (s : Nat) (src : Mem) (t n i : Nat) :
    strncpy dst s src t n i =
      if s ≤ i ∧ i < s + n then
        (if ∀ j < i - s, src (t + j) ≠ 0 then src (t + (i - s)) else 0)
      else dst i := by
  induction n generalizing dst s t with
  | zero =>
      simp only [strncpy]
      rw [if_neg (by omega)]
  | succ n ih =>
      by_cases nonzero : src t ≠ 0
      · rw [strncpy, if_pos nonzero, ih]
        by_cases here : i = s
        · subst here
          simp
        · by_cases inside : s + 1 ≤ i ∧ i < s + 1 + n
          · rw [if_pos inside, if_pos (show s ≤ i ∧ i < s + (n + 1) by omega)]
            have value : src (t + 1 + (i - (s + 1))) = src (t + (i - s)) := by
              congr 1
              omega
            have passed : (∀ j < i - (s + 1), src (t + 1 + j) ≠ 0) ↔ ∀ j < i - s, src (t + j) ≠ 0 := by
              constructor
              · intro rest j lt
                rcases j with _ | j
                · simpa using nonzero
                · simpa [Nat.add_assoc, Nat.add_comm 1 j] using rest j (by omega)
              · intro all j lt
                simpa [Nat.add_assoc, Nat.add_comm 1 j] using all (j + 1) (by omega)
            simp only [passed, value]
          · rw [if_neg inside, if_neg (by omega), Function.update_of_ne here]
      · have zero : src t = 0 := by simpa using nonzero
        rw [strncpy, if_neg nonzero]
        simp only [fill]
        by_cases here : i = s
        · subst here
          simp [zero]
        · by_cases inside : s + 1 ≤ i ∧ i < s + 1 + n
          · rw [if_pos inside, if_pos (by omega), if_neg]
            intro all
            exact all 0 (by omega) (by simpa using zero)
          · rw [if_neg inside, if_neg (by omega), Function.update_of_ne here]

/-- `memmove(dst, src, n)`: backwards when the destination starts inside the
source, forwards otherwise. It returns `dst`, which the model leaves out. -/
def memmove (m : Mem) (dst src n : Nat) : Mem :=
  if n = 0 then m
  else if src < dst ∧ src + n > dst then copyDown m (dst + n) (src + n) n
  else copyUp m dst src n

/-- The kernel's `memmove` moves the bytes whatever the overlap. -/
theorem memmove_eq_copy (m : Mem) (dst src n : Nat) : memmove m dst src n = copy m dst m src n := by
  rw [memmove]
  split_ifs with empty inside
  · rw [empty, copy_zero]
  · -- the destination starts inside the source: backwards
    exact copyDown_eq m dst src n (Or.inl inside.1.le)
  · exact copyUp_eq m dst src n (by omega)

namespace Ulib

/-- `memmove(vdst, vsrc, n)` of `user/ulib.c`, `n` an `int`: forwards when the
source starts above the destination, backwards otherwise. `while(n-- > 0)`
makes no pass for `n ≤ 0`, so for a negative `n` the ends `dst + n` and
`src + n` are never read and the model takes `n.toNat` there too. -/
def memmove (m : Mem) (dst src : Nat) (n : Int) : Mem :=
  if src > dst then copyUp m dst src n.toNat
  else copyDown m (dst + n.toNat) (src + n.toNat) n.toNat

/-- The user `memmove` moves the bytes whatever the overlap, and nothing for a
negative `n`. -/
theorem memmove_eq_copy (m : Mem) (dst src : Nat) (n : Int) :
    memmove m dst src n = copy m dst m src n.toNat := by
  rw [memmove]
  split_ifs with above
  · exact copyUp_eq m dst src n.toNat (Or.inl above.le)
  · exact copyDown_eq m dst src n.toNat (Or.inl (by omega))

end Ulib

/-- Both `memmove`s are overlap-safe: for every count, and whether the two
ranges overlap either way or not at all, the destination ends up holding what
the source held and no other byte changes (the user one copies nothing for a
negative count). -/
theorem memmove_overlap_safe (m : Mem) (dst src : Nat) :
    (∀ n : Nat, memmove m dst src n = copy m dst m src n) ∧
      ∀ n : Int, Ulib.memmove m dst src n = copy m dst m src n.toNat :=
  ⟨memmove_eq_copy m dst src, Ulib.memmove_eq_copy m dst src⟩

end Xv6
