import Mathlib

/-!
`printf` of `kernel/printf.c` and `vprintf` of `user/printf.c`. Both walk the
format string and hand each integer conversion to `printint`, which writes the
digits of the number, least significant first, into `char buf[16]` and prints
them backwards. The two differ in three places: the digit table (`abcdef` in
the kernel, `ABCDEF` in user space), the type of `printint`'s argument
(`long long` in the kernel, `int` in user space), and the kernel's `break` on a
`%` at the end of the format, which user space reaches by leaving its loop.
So both are one `format`, given the table and the width of that argument.

An argument is its `va_list` word: `va_arg(ap, int)` reads its low 32 bits as
a signed `int`, `va_arg(ap, uint64)` the whole word; converting either to
`printint`'s argument keeps its low `width` bits, read as signed. A `%s`
argument also carries the characters its word points to. A write to `buf` at
index 16 or beyond is undefined behaviour in C; the model stops there with an
error.
-/

namespace Xv6.Printf

/-- The low `width` bits of `w`, read as a two's-complement integer: the C
value of `w` converted to a signed type of `width` bits. -/
def signed (width w : Nat) : Int :=
  if w % 2 ^ width < 2 ^ (width - 1) then (w % 2 ^ width : Nat) else (w % 2 ^ width : Nat) - (2 ^ width : Int)

/-- A `va_list` argument: its word and, for `%s`, the string it points to. -/
structure Arg where
  word : Nat
  str : List Char

/-- The argument `va_arg` takes next; past the end of the list, a zero word. -/
def Arg.next (args : List Arg) : Arg := args.headD ⟨0, []⟩

/-- The bases `printint` is called with. -/
inductive Radix
  | dec
  | hex
  deriving DecidableEq

def Radix.val : Radix → Nat
  | .dec => 10
  | .hex => 16

theorem Radix.two_le (base : Radix) : 2 ≤ base.val := by
  cases base <;> decide

/-- The `do … while` loop of `printint`: `buf[i++] = digits[x % base]`, while
`(x /= base) != 0`. `buf` holds what was written, its length is `i`. -/
def printintLoop (digits : List Char) (base : Radix) (x : Nat) (buf : List Char) : Except String (List Char) :=
  if buf.length < 16 then
    let buf := buf ++ [digits.getD (x % base.val) '0']
    if x / base.val = 0 then .ok buf else printintLoop digits base (x / base.val) buf
  else .error "printint: buf[16] overflow"
termination_by x
decreasing_by
  have := base.two_le
  exact Nat.div_lt_self (Nat.pos_of_ne_zero fun zero => by simp_all) (by omega)

/-- `if(sign) buf[i++] = '-'`. -/
def pushSign (buf : List Char) : Except String (List Char) :=
  if buf.length < 16 then .ok (buf ++ ['-']) else .error "printint: buf[16] overflow"

/-- `printint(xx, base, sign)` for an argument `xx` of a signed type of `width`
bits: the digits of `xx`, or of `-xx` after a `-` when `sign` is set and `xx`
is negative, both as the unsigned type of `width` bits. -/
def printint (digits : List Char) (width : Nat) (xx : Int) (base : Radix) (sign : Bool) :
    Except String (List Char) := do
  let neg := sign && decide (xx < 0)
  let x := ((if neg then -xx else xx) % 2 ^ width).toNat
  let buf ← printintLoop digits base x []
  let buf ← if neg then pushSign buf else pure buf
  return buf.reverse

/-- `printptr`: `0x`, then the 16 hex digits of the word, `x >> 60` and `x <<= 4`. -/
def printptr (digits : List Char) (x : Nat) : List Char :=
  '0' :: 'x' :: (List.range 16).map fun i => digits.getD (x % 2 ^ 64 / 16 ^ (15 - i) % 16) '0'

/-- One conversion's characters, then the rest of the output. -/
def emit (out rest : Except String (List Char)) : Except String (List Char) := do
  let out ← out
  let rest ← rest
  return out ++ rest

/-- The loop of `printf`/`vprintf` over the characters of the format string.
The patterns follow the order of the `if` chain; `%l` and `%ll` are read only
when the next character completes a conversion, else `%` and the character
after it are printed and the loop goes on from there. -/
def format (digits : List Char) (width : Nat) : List Char → List Arg → Except String (List Char)
  | [], _ => .ok []
  | ['%'], _ => .ok []
  | '%' :: 'd' :: fmt, args =>
      emit (printint digits width (signed 32 (Arg.next args).word) .dec true) (format digits width fmt args.tail)
  | '%' :: 'l' :: 'd' :: fmt, args =>
      emit (printint digits width (signed width (Arg.next args).word) .dec true) (format digits width fmt args.tail)
  | '%' :: 'l' :: 'l' :: 'd' :: fmt, args =>
      emit (printint digits width (signed width (Arg.next args).word) .dec true) (format digits width fmt args.tail)
  | '%' :: 'u' :: fmt, args =>
      emit (printint digits width (signed 32 (Arg.next args).word) .dec false) (format digits width fmt args.tail)
  | '%' :: 'l' :: 'u' :: fmt, args =>
      emit (printint digits width (signed width (Arg.next args).word) .dec false) (format digits width fmt args.tail)
  | '%' :: 'l' :: 'l' :: 'u' :: fmt, args =>
      emit (printint digits width (signed width (Arg.next args).word) .dec false) (format digits width fmt args.tail)
  | '%' :: 'x' :: fmt, args =>
      emit (printint digits width (signed 32 (Arg.next args).word) .hex false) (format digits width fmt args.tail)
  | '%' :: 'l' :: 'x' :: fmt, args =>
      emit (printint digits width (signed width (Arg.next args).word) .hex false) (format digits width fmt args.tail)
  | '%' :: 'l' :: 'l' :: 'x' :: fmt, args =>
      emit (printint digits width (signed width (Arg.next args).word) .hex false) (format digits width fmt args.tail)
  | '%' :: 'p' :: fmt, args =>
      emit (.ok (printptr digits (Arg.next args).word)) (format digits width fmt args.tail)
  | '%' :: 's' :: fmt, args =>
      emit (.ok (if (Arg.next args).word = 0 then ['(', 'n', 'u', 'l', 'l', ')'] else (Arg.next args).str))
        (format digits width fmt args.tail)
  | '%' :: '%' :: fmt, args => emit (.ok ['%']) (format digits width fmt args)
  | '%' :: c0 :: fmt, args => emit (.ok ['%', c0]) (format digits width fmt args)
  | c :: fmt, args => emit (.ok [c]) (format digits width fmt args)

/-- `digits[]` of the kernel's `printf.c`. -/
def kdigits : List Char := ['0', '1', '2', '3', '4', '5', '6', '7', '8', '9', 'a', 'b', 'c', 'd', 'e', 'f']

/-- `digits[]` of user space's `printf.c`. -/
def udigits : List Char := ['0', '1', '2', '3', '4', '5', '6', '7', '8', '9', 'A', 'B', 'C', 'D', 'E', 'F']

/-- The kernel's `printf(fmt, ...)`: `printint` takes a `long long`. -/
def printf (fmt : List Char) (args : List Arg) : Except String (List Char) := format kdigits 64 fmt args

/-- User space's `vprintf(fd, fmt, ap)`: `printint` takes an `int`. -/
def vprintf (fmt : List Char) (args : List Arg) : Except String (List Char) := format udigits 32 fmt args

/-! The standard C rendering: the digits of a number in a base, most
significant first, with lowercase hex digits, and `-` before the magnitude of
a negative signed value. -/

/-- The digits `printint` writes for `x`, least significant first: one `0`
for zero. -/
def lowDigits (b x : Nat) : List Nat := if x = 0 then [0] else Nat.digits b x

def render (b x : Nat) : List Char := ((lowDigits b x).map Nat.digitChar).reverse

def renderSigned (v : Int) : List Char := if v < 0 then '-' :: render 10 v.natAbs else render 10 v.toNat

section Digits

theorem lowDigits_step {b : Nat} (two : 2 ≤ b) (x : Nat) :
    lowDigits b x = x % b :: (if x / b = 0 then [] else lowDigits b (x / b)) := by
  by_cases zero : x = 0
  · simp [lowDigits, zero]
  · rw [lowDigits, if_neg zero, Nat.digits_def' (by omega) (Nat.pos_of_ne_zero zero)]
    split_ifs with last
    · rw [last, Nat.digits_zero]
    · rw [lowDigits, if_neg last]

theorem lowDigits_lt {b : Nat} (two : 2 ≤ b) {x d : Nat} (member : d ∈ lowDigits b x) : d < b := by
  unfold lowDigits at member
  split_ifs at member
  · rw [List.mem_singleton] at member
    omega
  · exact Nat.digits_lt_base (by omega) member

/-- Every number has at most `k ≥ 1` digits exactly when it is below `b ^ k`. -/
theorem lowDigits_length_le {b : Nat} (two : 2 ≤ b) (x : Nat) {k : Nat} (pos : 0 < k) :
    (lowDigits b x).length ≤ k ↔ x < b ^ k := by
  unfold lowDigits
  split_ifs with zero
  · simp only [zero, List.length_singleton]
    exact ⟨fun _ => Nat.pow_pos (by omega), fun _ => pos⟩
  · exact Nat.digits_length_le_iff (by omega) x

theorem lowDigits_injective {b x y : Nat} (same : lowDigits b x = lowDigits b y) : x = y := by
  have value (z : Nat) : Nat.ofDigits b (lowDigits b z) = z := by
    unfold lowDigits
    split_ifs with zero
    · simp [zero, Nat.ofDigits]
    · exact Nat.ofDigits_digits b z
  rw [← value x, ← value y, same]

theorem digitChar_injective {d d' : Nat} (small : d < 16) (small' : d' < 16)
    (same : Nat.digitChar d = Nat.digitChar d') : d = d' := by
  revert same
  revert d'
  revert d
  decide

theorem map_digitChar_injective : ∀ {ds ds' : List Nat}, (∀ d ∈ ds, d < 16) → (∀ d ∈ ds', d < 16) →
    ds.map Nat.digitChar = ds'.map Nat.digitChar → ds = ds'
  | [], [], _, _, _ => rfl
  | d :: ds, d' :: ds', small, small', same => by
    simp only [List.map_cons, List.cons.injEq] at same
    simp only [List.mem_cons, forall_eq_or_imp] at small small'
    rw [digitChar_injective small.1 small'.1 same.1,
      map_digitChar_injective small.2 small'.2 same.2]

theorem render_injective {b x y : Nat} (two : 2 ≤ b) (base : b ≤ 16) (same : render b x = render b y) :
    x = y := by
  have small (z : Nat) : ∀ d ∈ lowDigits b z, d < 16 := fun d member => by
    have := lowDigits_lt two member
    omega
  apply lowDigits_injective
  exact map_digitChar_injective (small x) (small y) (List.reverse_inj.mp same)

end Digits

section Printint

variable (digits : List Char) (base : Radix)

theorem printintLoop_eq (x : Nat) (buf : List Char) :
    printintLoop digits base x buf =
      if buf.length + (lowDigits base.val x).length ≤ 16 then
        .ok (buf ++ (lowDigits base.val x).map (digits.getD · '0'))
      else .error "printint: buf[16] overflow" := by
  rw [printintLoop, lowDigits_step base.two_le x]
  by_cases room : buf.length < 16
  · rw [if_pos room]
    by_cases last : x / base.val = 0
    · simp only [if_pos last, List.length_cons, List.length_nil, List.map_cons, List.map_nil]
      rw [if_pos (by omega)]
    -- one more digit, and the loop goes on with the quotient
    · simp only [if_neg last, List.length_cons, List.map_cons]
      rw [printintLoop_eq (x / base.val), List.length_append, List.length_singleton,
        List.append_assoc, List.singleton_append]
      simp only [Nat.add_assoc, Nat.add_comm 1]
  · rw [if_neg room, if_neg (by simp only [List.length_cons]; omega)]
termination_by x
decreasing_by
  have := base.two_le
  exact Nat.div_lt_self (Nat.pos_of_ne_zero fun zero => by simp_all) (by omega)

/-- With a digit table that agrees with `Nat.digitChar` below the base,
`printint` prints the standard rendering of its argument as the unsigned type of
`width` bits, or `-` and that of its negation, if that fits in `buf`. -/
theorem printint_render (table : ∀ d < base.val, digits.getD d '0' = Nat.digitChar d)
    (width : Nat) (xx : Int) (sign : Bool) :
    printint digits width xx base sign =
      if sign ∧ xx < 0 then
        if (lowDigits base.val ((-xx) % 2 ^ width).toNat).length < 16 then
          .ok ('-' :: render base.val ((-xx) % 2 ^ width).toNat)
        else .error "printint: buf[16] overflow"
      else
        if (lowDigits base.val (xx % 2 ^ width).toNat).length ≤ 16 then
          .ok (render base.val (xx % 2 ^ width).toNat)
        else .error "printint: buf[16] overflow" := by
  have rendered (x : Nat) : (lowDigits base.val x).map (digits.getD · '0') = (lowDigits base.val x).map Nat.digitChar :=
    List.map_congr_left fun d member => table d (lowDigits_lt base.two_le member)
  simp only [printint, printintLoop_eq, List.length_nil, Nat.zero_add, List.nil_append, rendered]
  by_cases neg : sign ∧ xx < 0
  · obtain ⟨rfl, negative⟩ := neg
    simp only [negative, decide_true, Bool.and_self, if_true, true_and]
    -- the sign needs a seventeenth byte when the digits fill all sixteen
    by_cases fits : (lowDigits base.val ((-xx) % 2 ^ width).toNat).length < 16
    · simp [pushSign, render, fits, Nat.le_of_lt fits, bind, Except.bind, pure, Except.pure]
    · by_cases room : (lowDigits base.val ((-xx) % 2 ^ width).toNat).length ≤ 16
      · simp [pushSign, fits, room, bind, Except.bind]
      · simp only [fits, room, if_false]
        rfl
  · have plain : (sign && decide (xx < 0)) = false := by
      cases sign <;> simp_all
    simp only [plain, Bool.false_eq_true, if_false, neg]
    split_ifs <;> rfl

end Printint

section Conversions

theorem kdigits_getD : ∀ d < 16, kdigits.getD d '0' = Nat.digitChar d := by
  decide

theorem udigits_getD : ∀ d < 10, udigits.getD d '0' = Nat.digitChar d := by
  decide

theorem kdigits_table (base : Radix) : ∀ d < base.val, kdigits.getD d '0' = Nat.digitChar d := by
  intro d small
  cases base <;> exact kdigits_getD d (by simp only [Radix.val] at small; omega)

theorem signed_neg_toNat {w : Nat} (negative : signed 32 w < 0) :
    (signed 32 w % 2 ^ 64).toNat = w % 2 ^ 32 + (2 ^ 64 - 2 ^ 32) := by
  unfold signed at negative ⊢
  split_ifs at negative ⊢ with low
  · omega
  · norm_num at low ⊢
    omega

theorem signed_emod_toNat (width w : Nat) : (signed width w % 2 ^ width).toNat = w % 2 ^ width := by
  have below := Nat.mod_lt w (Nat.pow_pos (n := width) (by decide : 0 < 2))
  have low : ((w % 2 ^ width : Nat) : Int) % 2 ^ width = (w % 2 ^ width : Nat) :=
    Int.emod_eq_of_lt (by omega) (by exact_mod_cast below)
  unfold signed
  split_ifs
  · rw [low, Int.toNat_natCast]
  · rw [Int.sub_emod_right, low, Int.toNat_natCast]

theorem emit_error (e : String) (rest : Except String (List Char)) : emit (.error e) rest = .error e := rfl

theorem emit_ok (out : List Char) (rest : Except String (List Char)) :
    emit (.ok out) rest = (rest.map fun rest => out ++ rest) := by
  cases rest <;> rfl

theorem printint_buf_overflows (w : Nat) (s fmt : List Char) (args : List Arg) :
    (10 ^ 16 ≤ w % 2 ^ 64 →
      printf ('%' :: 'l' :: 'u' :: fmt) (⟨w, s⟩ :: args) = .error "printint: buf[16] overflow") ∧
    (signed 32 w < 0 →
      printf ('%' :: 'u' :: fmt) (⟨w, s⟩ :: args) = .error "printint: buf[16] overflow") ∧
    (signed 32 w < 0 →
      printf ('%' :: 'x' :: fmt) (⟨w, s⟩ :: args) =
        emit (.ok (render 16 (w % 2 ^ 32 + (2 ^ 64 - 2 ^ 32)))) (printf fmt args) ∧
      render 16 (w % 2 ^ 32 + (2 ^ 64 - 2 ^ 32)) ≠ render 16 (w % 2 ^ 32)) := by
  have table := kdigits_table
  refine ⟨fun large => ?_, fun negative => ?_, fun negative => ⟨?_, ?_⟩⟩
  -- `%lu`: twenty digits at most, but only sixteen bytes
  · have long : ¬ (lowDigits 10 (w % 2 ^ 64)).length ≤ 16 := by
      rw [lowDigits_length_le (by decide) _ (by decide)]
      omega
    simp only [printf, format, Arg.next, List.headD_cons, printint_render kdigits .dec (table .dec),
      Bool.false_eq_true, false_and, if_false, signed_emod_toNat, Radix.val, if_neg long, emit_error]
  -- `%u` of a negative `int`: sign-extended to 64 bits first
  · have long : ¬ (lowDigits 10 (w % 2 ^ 32 + (2 ^ 64 - 2 ^ 32))).length ≤ 16 := by
      rw [lowDigits_length_le (by decide) _ (by decide)]
      omega
    simp only [printf, format, Arg.next, List.headD_cons, printint_render kdigits .dec (table .dec),
      Bool.false_eq_true, false_and, if_false, signed_neg_toNat negative, Radix.val, if_neg long,
      emit_error]
  · have fits : (lowDigits 16 (w % 2 ^ 32 + (2 ^ 64 - 2 ^ 32))).length ≤ 16 := by
      rw [lowDigits_length_le (by decide) _ (by decide)]
      omega
    simp only [printf, format, Arg.next, List.headD_cons, printint_render kdigits .hex (table .hex),
      Bool.false_eq_true, false_and, if_false, signed_neg_toNat negative, Radix.val, if_pos fits,
      List.tail_cons]
  · intro same
    have := render_injective (by decide) le_rfl same
    omega

theorem printint_buf_overflows_max :
    printf ['%', 'l', 'u'] [⟨2 ^ 64 - 1, []⟩] = .error "printint: buf[16] overflow" ∧
    printf ['%', 'u'] [⟨2 ^ 64 - 1, []⟩] = .error "printint: buf[16] overflow" ∧
    printf ['%', 'x'] [⟨2 ^ 64 - 1, []⟩] = emit (.ok (render 16 (2 ^ 64 - 1))) (printf [] []) ∧
      render 16 (2 ^ 64 - 1) ≠ render 16 (2 ^ 32 - 1) := by
  have negative : signed 32 (2 ^ 64 - 1) < 0 := by decide
  obtain ⟨lu, u, x⟩ := printint_buf_overflows (2 ^ 64 - 1) [] [] []
  exact ⟨lu (by decide), u negative, x negative⟩

theorem signed_32_bounds (w : Nat) : -2 ^ 31 ≤ signed 32 w ∧ signed 32 w < 2 ^ 31 := by
  unfold signed
  split_ifs <;> norm_num at * <;> omega

theorem digitChar_ne_minus : ∀ d < 16, Nat.digitChar d ≠ '-' := by
  decide

theorem minus_not_mem_render {b : Nat} (two : 2 ≤ b) (base : b ≤ 16) (x : Nat) : '-' ∉ render b x := by
  simp only [render, List.mem_reverse, List.mem_map, not_exists, not_and]
  intro d member
  exact digitChar_ne_minus d (by have := lowDigits_lt two member; omega)

theorem printint_udigits_dec (w : Nat) :
    printint udigits 32 (signed 32 w) .dec true = .ok (renderSigned (signed 32 w)) := by
  obtain ⟨above, below⟩ := signed_32_bounds w
  rw [printint_render udigits .dec udigits_getD]
  simp only [true_and, renderSigned]
  by_cases negative : signed 32 w < 0
  · have magnitude : ((-signed 32 w) % 2 ^ 32).toNat = (signed 32 w).natAbs := by omega
    have short : (lowDigits Radix.dec.val (signed 32 w).natAbs).length < 16 :=
      Nat.lt_of_le_of_lt ((lowDigits_length_le Radix.dec.two_le _ (by decide : 0 < 15)).mpr
        (show _ < 10 ^ 15 by omega)) (by decide)
    rw [if_pos negative, if_pos negative, magnitude, if_pos short]
    rfl
  · have value : (signed 32 w % 2 ^ 32).toNat = (signed 32 w).toNat := by omega
    have short : (lowDigits Radix.dec.val (signed 32 w).toNat).length ≤ 16 :=
      (lowDigits_length_le Radix.dec.two_le _ (by decide)).mpr (show _ < 10 ^ 16 by omega)
    rw [if_neg negative, if_neg negative, value, if_pos short]
    rfl

theorem vprintf_ld_truncated (w : Nat) (s fmt : List Char) (args : List Arg) :
    vprintf ('%' :: 'l' :: 'd' :: fmt) (⟨w, s⟩ :: args) =
      emit (.ok (renderSigned (signed 32 w))) (vprintf fmt args) ∧
    (2 ^ 32 ≤ w % 2 ^ 64 → w % 2 ^ 64 < 2 ^ 63 → renderSigned (signed 32 w) ≠ renderSigned (signed 64 w)) := by
  refine ⟨?_, fun large positive => ?_⟩
  · simp only [vprintf, format, Arg.next, List.headD_cons, List.tail_cons, printint_udigits_dec]
  -- the full word is a positive `long`; its low 32 bits are another number, or negative
  · have full : signed 64 w = (w % 2 ^ 64 : Nat) := by
      unfold signed
      rw [if_pos (by norm_num; omega)]
    have standard : renderSigned (signed 64 w) = render 10 (w % 2 ^ 64) := by
      rw [full, renderSigned, if_neg (by omega), Int.toNat_natCast]
    rw [standard, renderSigned]
    split_ifs with negative
    · intro same
      exact minus_not_mem_render (by decide) (by decide) (w % 2 ^ 64) (same ▸ List.mem_cons_self)
    · intro same
      have := render_injective (by decide) (by decide) same
      have low : (signed 32 w).toNat = w % 2 ^ 32 := by
        have := signed_emod_toNat 32 w
        have := signed_32_bounds w
        omega
      omega

theorem vprintf_ld_truncated_four_gib :
    vprintf ['%', 'l', 'd'] [⟨2 ^ 32, []⟩] = emit (.ok (renderSigned (signed 32 (2 ^ 32)))) (vprintf [] []) ∧
      renderSigned (signed 32 (2 ^ 32)) ≠ renderSigned (signed 64 (2 ^ 32)) :=
  ⟨(vprintf_ld_truncated (2 ^ 32) [] [] []).1, (vprintf_ld_truncated (2 ^ 32) [] [] []).2 (by decide) (by decide)⟩

end Conversions

end Xv6.Printf
