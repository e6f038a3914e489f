import Mathlib

/-!
Byte-addressed memories. A disk block, a physical page or the image of a C
struct is a total function from offsets to bytes; only the offsets the code
touches matter. Multi-byte integers are stored little-endian, and a bitmap keeps
bit `i` in bit `i % 8` of byte `i / 8`, tested and changed through the mask
`1 << (i % 8)` as C code does it. Nothing here is specific to one program.
-/

namespace Bytes

abbrev Mem := Nat → UInt8

/-- The `w`-byte little-endian number stored at `off`. -/
def readLE (m : Mem) (off : Nat) : Nat → Nat
  | 0 => 0
  | w + 1 => (m off).toNat + 256 * readLE m (off + 1) w

/-- Store the low `w` bytes of `v` at `off`, least significant byte first. -/
def writeLE (m : Mem) (off : Nat) : Nat → Nat → Mem
  | 0, _ => m
  | w + 1, v => writeLE (Function.update m off v.toUInt8) (off + 1) w (v / 256)

/-- `n` consecutive `w`-byte little-endian words from `off`, word `i` holding `v i`
(an array of C integers). -/
def writeWords (m : Mem) (off w : Nat) (v : Nat → Nat) : Nat → Mem
  | 0 => m
  | n + 1 => writeLE (writeWords m off w v n) (off + w * n) w (v n)

/-- `n` bytes of `src` starting at `soff`, copied to `dst` at `doff` (memmove). -/
def copy (dst : Mem) (doff : Nat) (src : Mem) (soff n : Nat) : Mem :=
  fun i => if doff ≤ i ∧ i < doff + n then src (soff + (i - doff)) else dst i

/-- `n` bytes set to `b` from `off` on (memset). -/
def fill (m : Mem) (off n : Nat) (b : UInt8) : Mem :=
  fun i => if off ≤ i ∧ i < off + n then b else m i

/-- The mask `1 << (i % 8)` that selects bit `i` inside its byte. -/
def mask (i : Nat) : UInt8 := 1 <<< (i % 8).toUInt8

/-- Bit `i` of a bitmap. -/
def bit (m : Mem) (i : Nat) : Bool := (m (i / 8)).toNat.testBit (i % 8)

/-- `m[i/8] |= mask i`. -/
def setBit (m : Mem) (i : Nat) : Mem := fun k => if k = i / 8 then m k ||| mask i else m k

/-- `m[i/8] &= ~mask i`. -/
def clearBit (m : Mem) (i : Nat) : Mem := fun k => if k = i / 8 then m k &&& ~~~mask i else m k

section LittleEndian

theorem readLE_lt (m : Mem) (off w : Nat) : readLE m off w < 256 ^ w := by
  induction w generalizing off with
  | zero => simp [readLE]
  | succ w ih =>
      have low := (m off).toNat_lt
      have high := ih (off + 1)
      rw [readLE, pow_succ]
      omega

@[simp] theorem readLE_zero_mem (off w : Nat) : readLE (fun _ => 0) off w = 0 := by
  induction w generalizing off with
  | zero => rfl
  | succ w ih => simp [readLE, ih]

theorem readLE_congr {m m' : Mem} {off w : Nat}
    (same : ∀ i, off ≤ i → i < off + w → m i = m' i) : readLE m off w = readLE m' off w := by
  induction w generalizing off with
  | zero => rfl
  | succ w ih =>
      have head := same off (Nat.le_refl _) (by omega)
      have tail : readLE m (off + 1) w = readLE m' (off + 1) w :=
        ih fun i lower upper => same i (by omega) (by omega)
      simp only [readLE, head, tail]

/-- Bytes that are all `255` read as the largest `w`-byte number. -/
theorem readLE_full {m : Mem} {off w : Nat} (full : ∀ i, off ≤ i → i < off + w → m i = 255) :
    readLE m off w = 256 ^ w - 1 := by
  induction w generalizing off with
  | zero => rfl
  | succ w ih =>
      have head := full off (Nat.le_refl _) (by omega)
      have tail : readLE m (off + 1) w = 256 ^ w - 1 :=
        ih fun i lower upper => full i (by omega) (by omega)
      have pos := Nat.one_le_pow w 256 (by decide)
      rw [readLE, head, tail, pow_succ, show (255 : UInt8).toNat = 255 from rfl]
      omega

theorem writeLE_apply (m : Mem) (off w v i : Nat) :
    writeLE m off w v i =
      if off ≤ i ∧ i < off + w then (v / 256 ^ (i - off)).toUInt8 else m i := by
  induction w generalizing m off v with
  | zero => rw [writeLE, if_neg (by omega)]
  | succ w ih =>
      rw [writeLE, ih]
      by_cases here : i = off
      · subst i
        simp
      · by_cases inside : off + 1 ≤ i ∧ i < off + 1 + w
        · have shift : i - off = i - (off + 1) + 1 := by omega
          simp only [inside, and_self, ↓reduceIte]
          rw [if_pos (by omega), shift, pow_succ', Nat.div_div_eq_div_mul]
        · simp only [inside, ↓reduceIte, Function.update_of_ne here]
          rw [if_neg (by omega)]

theorem writeLE_of_outside (m : Mem) (off w v i : Nat) (outside : i < off ∨ off + w ≤ i) :
    writeLE m off w v i = m i := by
  rw [writeLE_apply, if_neg (by omega)]

theorem readLE_writeLE (m : Mem) (off w v : Nat) :
    readLE (writeLE m off w v) off w = v % 256 ^ w := by
  induction w generalizing m off v with
  | zero => simp [readLE, Nat.mod_one]
  | succ w ih =>
      have head : writeLE (Function.update m off v.toUInt8) (off + 1) w (v / 256) off =
          v.toUInt8 := by
        rw [writeLE_of_outside _ _ _ _ _ (.inl (Nat.lt_succ_self off))]
        simp
      rw [writeLE, readLE, head, ih, pow_succ', Nat.mod_mul]
      simp [Nat.toUInt8]

theorem readLE_writeLE_of_lt (m : Mem) (off w v : Nat) (small : v < 256 ^ w) :
    readLE (writeLE m off w v) off w = v := by
  rw [readLE_writeLE, Nat.mod_eq_of_lt small]

theorem readLE_writeLE_of_disjoint (m : Mem) (off w v off' w' : Nat)
    (apart : off' + w' ≤ off ∨ off + w ≤ off') :
    readLE (writeLE m off w v) off' w' = readLE m off' w' := by
  apply readLE_congr
  intro i lower upper
  exact writeLE_of_outside m off w v i (by omega)

theorem readLE_copy_of_disjoint (dst src : Mem) (doff soff n off w : Nat)
    (apart : off + w ≤ doff ∨ doff + n ≤ off) :
    readLE (copy dst doff src soff n) off w = readLE dst off w := by
  apply readLE_congr
  intro i lower upper
  simp only [copy]
  rw [if_neg (by omega)]

theorem readLE_fill_zero (m : Mem) (off n off' w : Nat) (inside : off ≤ off' ∧ off' + w ≤ off + n) :
    readLE (fill m off n 0) off' w = 0 := by
  induction w generalizing off' with
  | zero => rfl
  | succ w ih =>
      have head : fill m off n 0 off' = 0 := by
        simp only [fill]
        rw [if_pos (by omega)]
      rw [readLE, head, ih (off' + 1) (by omega)]
      rfl

theorem writeLE_readLE (m : Mem) (off w : Nat) : writeLE m off w (readLE m off w) = m := by
  funext i
  rw [writeLE_apply]
  split
  · rename_i inside
    obtain ⟨k, rfl⟩ : ∃ k, i = off + k := ⟨i - off, by omega⟩
    have within : k < w := by omega
    rw [Nat.add_sub_cancel_left]
    clear inside
    induction w generalizing off k with
    | zero => omega
    | succ w ih =>
        rcases k with _ | k
        · apply UInt8.toNat_inj.mp
          simp [readLE, Nat.toUInt8]
        · rw [readLE, pow_succ', ← Nat.div_div_eq_div_mul]
          have shift : ((m off).toNat + 256 * readLE m (off + 1) w) / 256 = readLE m (off + 1) w := by
            have := (m off).toNat_lt
            omega
          rw [shift, show off + (k + 1) = off + 1 + k by omega]
          exact ih (off + 1) k (by omega)
  · rfl

theorem writeWords_of_outside (m : Mem) (off w : Nat) (v : Nat → Nat) (n i : Nat)
    (outside : i < off ∨ off + w * n ≤ i) : writeWords m off w v n i = m i := by
  induction n with
  | zero => rfl
  | succ n ih =>
      have shorter : i < off ∨ off + w * n ≤ i := by
        rcases outside with before | after
        · exact .inl before
        · exact .inr (le_trans (Nat.add_le_add_left (Nat.mul_le_mul_left w (Nat.le_succ n)) off) after)
      rw [writeWords, writeLE_of_outside _ _ _ _ _ (by rw [Nat.mul_succ] at outside; omega), ih shorter]

theorem readLE_writeWords (m : Mem) (off w : Nat) (v : Nat → Nat) (n i : Nat) (below : i < n) :
    readLE (writeWords m off w v n) (off + w * i) w = v i % 256 ^ w := by
  induction n with
  | zero => omega
  | succ n ih =>
      rw [writeWords]
      rcases Nat.lt_succ_iff_lt_or_eq.mp below with earlier | rfl
      · have apart : off + w * i + w ≤ off + w * n := by
          have := Nat.mul_le_mul_left w (Nat.succ_le_of_lt earlier)
          rw [Nat.mul_succ] at this
          omega
        rw [readLE_writeLE_of_disjoint _ _ _ _ _ _ (.inl apart), ih earlier]
      · exact readLE_writeLE _ _ _ _

theorem readLE_writeWords_of_disjoint (m : Mem) (off w : Nat) (v : Nat → Nat) (n off' w' : Nat)
    (apart : off' + w' ≤ off ∨ off + w * n ≤ off') :
    readLE (writeWords m off w v n) off' w' = readLE m off' w' := by
  apply readLE_congr
  intro i lower upper
  exact writeWords_of_outside m off w v n i (by omega)

end LittleEndian

section Bitmap

theorem mask_toNat (i : Nat) : (mask i).toNat = 2 ^ (i % 8) := by
  have small : i % 8 ∈ Finset.range 8 := Finset.mem_range.mpr (Nat.mod_lt i (by decide))
  unfold mask
  generalize i % 8 = b at small ⊢
  fin_cases small <;> decide

theorem and_mask_eq_zero (x : UInt8) (i : Nat) :
    x &&& mask i = 0 ↔ x.toNat.testBit (i % 8) = false := by
  have key : (x &&& mask i).toNat = (x.toNat.testBit (i % 8)).toNat * 2 ^ (i % 8) := by
    rw [UInt8.toNat_and, mask_toNat, Nat.and_two_pow]
  rw [← UInt8.toNat_inj, key]
  cases x.toNat.testBit (i % 8) <;> simp

theorem bit_eq_false_iff (m : Mem) (i : Nat) : bit m i = false ↔ m (i / 8) &&& mask i = 0 := by
  rw [and_mask_eq_zero, bit]

private theorem clear_mask_testBit : ∀ a < 8, ∀ b < 8, (255 - 2 ^ a).testBit b = !decide (a = b) := by
  decide

theorem bit_setBit (m : Mem) (i j : Nat) : bit (setBit m i) j = (bit m j || decide (i = j)) := by
  unfold bit setBit
  by_cases sameByte : i / 8 = j / 8
  · rw [← sameByte, if_pos rfl, UInt8.toNat_or, mask_toNat, Nat.testBit_or,
      Nat.testBit_two_pow]
    have iff : (i % 8 = j % 8) ↔ i = j := by omega
    simp only [iff]
  · rw [if_neg (Ne.symm sameByte)]
    have different : i ≠ j := fun same => sameByte (congrArg (· / 8) same)
    simp [different]

theorem bit_clearBit (m : Mem) (i j : Nat) : bit (clearBit m i) j = (bit m j && !decide (i = j)) := by
  unfold bit clearBit
  by_cases sameByte : i / 8 = j / 8
  · rw [← sameByte, if_pos rfl, UInt8.toNat_and, Nat.testBit_and, UInt8.toNat_not,
      mask_toNat]
    have iff : (i % 8 = j % 8) ↔ i = j := by omega
    have cleared := clear_mask_testBit (i % 8) (Nat.mod_lt _ (by decide)) (j % 8)
      (Nat.mod_lt _ (by decide))
    simp only [UInt8.size] at cleared ⊢
    simp only [Nat.reduceSub, cleared, iff]
  · rw [if_neg (Ne.symm sameByte)]
    have different : i ≠ j := fun same => sameByte (congrArg (· / 8) same)
    simp [different]

theorem setBit_apply_of_ne (m : Mem) (i k : Nat) (other : k ≠ i / 8) : setBit m i k = m k :=
  if_neg other

theorem clearBit_apply_of_ne (m : Mem) (i k : Nat) (other : k ≠ i / 8) : clearBit m i k = m k :=
  if_neg other

end Bitmap

/-! The two loops a `memmove` is made of. Each reads a source byte before it
writes the destination byte of the same pass, so it moves the bytes as `copy`
does unless a pass reads a byte an earlier pass wrote: for a forward copy a
destination that starts above the source and inside it, for a backward copy
one that starts below the source and reaches into it. -/

section CopyLoops

/-- `while(n-- > 0) *d++ = *s++;` -/
def copyUp (m : Mem) (d s : Nat) : Nat → Mem
  | 0 => m
  | n + 1 => copyUp (Function.update m d (m s)) (d + 1) (s + 1) n

/-- `while(n-- > 0) *--d = *--s;`, from `d` and `s` one past the ends of the
two ranges. -/
def copyDown (m : Mem) (d s : Nat) : Nat → Mem
  | 0 => m
  | n + 1 => copyDown (Function.update m (d - 1) (m (s - 1))) (d - 1) (s - 1) n

@[simp] theorem copy_zero (dst : Mem) (doff : Nat) (src : Mem) (soff : Nat) : copy dst doff src soff 0 = dst := by
  funext i
  simp only [copy]
  rw [if_neg (by omega)]

/-- A forward copy moves the bytes when the destination does not start above
the source, or starts past its end. -/
theorem copyUp_eq (m : Mem) (d s n : Nat) (safe : d ≤ s ∨ s + n ≤ d) : copyUp m d s n = copy m d m s n := by
  induction n generalizing m d s with
  | zero => simp [copyUp]
  | succ n ih =>
      rw [copyUp, ih _ _ _ (by omega)]
      funext i
      simp only [copy]
      by_cases first : i = d
      · subst first
        rw [if_neg (by omega), if_pos (by omega), Function.update_self, Nat.sub_self, Nat.add_zero]
      · by_cases later : d + 1 ≤ i ∧ i < d + 1 + n
        · -- the pass for `i` reads a byte no earlier pass wrote
          have unwritten : s + 1 + (i - (d + 1)) ≠ d := by omega
          rw [if_pos later, if_pos (by omega), Function.update_of_ne unwritten,
            show s + 1 + (i - (d + 1)) = s + (i - d) by omega]
        · rw [if_neg later, if_neg (by omega), Function.update_of_ne first]

theorem copyDown_eq (m : Mem) (d s n : Nat) (safe : s ≤ d ∨ d + n ≤ s) :
    copyDown m (d + n) (s + n) n = copy m d m s n := by
  induction n generalizing m with
  | zero => simp [copyDown]
  | succ n ih =>
      rw [copyDown, show d + (n + 1) - 1 = d + n by omega, show s + (n + 1) - 1 = s + n by omega,
        ih _ (by omega)]
      funext i
      simp only [copy]
      by_cases last : i = d + n
      · subst last
        rw [if_neg (by omega), if_pos (by omega), Function.update_self, show s + (d + n - d) = s + n by omega]
      · by_cases earlier : d ≤ i ∧ i < d + n
        · -- the pass for `i` reads a byte no earlier pass wrote
          have unwritten : s + (i - d) ≠ d + n := by omega
          rw [if_pos earlier, if_pos (by omega), Function.update_of_ne unwritten]
        · rw [if_neg earlier, if_neg (by omega), Function.update_of_ne last]

end CopyLoops

end Bytes
