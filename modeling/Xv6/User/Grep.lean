import Xv6.Library.StarPattern

/-!
`user/grep.c`: the regular-expression matcher of Kernighan and Pike (`match`,
`matchhere`, `matchstar`) and `grep`'s loop, which reads its input into
`char buf[1024]` and hands each newline-terminated line to `match`.

A C string is the list of its characters before the NUL. The matcher is shown
to decide the language of its pattern read as atoms with optional stars
(`StarPattern`); the loop is run against a reader that delivers the input in
arbitrary bursts, which is how a pipe or the console splits it.
-/

namespace Xv6.Grep

open StarPattern

section Matcher

/-- The loop of `matchstar(c, re, text)`, given `matchhere(re, ·)` as `here`:
`do { if(matchhere(re, text)) return 1; } while(*text!='\0' && (*text++==c || c=='.'))`. -/
def starLoop (here : List Char → Bool) (c : Char) : List Char → Bool
  | [] => here []
  | t :: text => here (t :: text) || ((t == c || c == '.') && starLoop here c text)

/-- `matchhere(re, text)`: search for `re` at the beginning of `text`. -/
def matchhere : List Char → List Char → Bool
  | [], _ => true
  -- `matchstar(re[0], re+2, text)`, with `matchstar` unfolded so that the recursion is structural
  | c :: '*' :: re, text => starLoop (matchhere re) c text
  | ['$'], text => text.isEmpty
  | c :: re, t :: text => (c == '.' || c == t) && matchhere re text
  | _ :: _, [] => false

/-- `matchstar(c, re, text)`: search for `c*re` at the beginning of `text`. -/
def matchstar (c : Char) (re text : List Char) : Bool := starLoop (matchhere re) c text

/-- The loop of `match`: `do { if(matchhere(re, text)) return 1; } while(*text++ != '\0')`. -/
def matchLoop (re : List Char) : List Char → Bool
  | [] => matchhere re []
  | t :: text => matchhere re (t :: text) || matchLoop re text

/-- `match(re, text)`: search for `re` anywhere in `text`. -/
def «match» : List Char → List Char → Bool
  | '^' :: re, text => matchhere re text
  | re, text => matchLoop re text

end Matcher

/-! What a pattern means: after a leading `^`, it is read left to right as
atoms, a character or `.`, each optionally followed by `*`; a `$` that ends it
and is not starred anchors the match at the end of the text, and every other
character stands for itself. -/

section Reference

def atom (c : Char) : Atom Char := if c = '.' then .any else .lit c

/-- The pieces of a pattern, and whether it ends in an anchoring `$`. -/
def pieces : List Char → List (Piece Char) × Bool
  | [] => ([], false)
  | c :: '*' :: re => (.star (atom c) :: (pieces re).1, (pieces re).2)
  | ['$'] => ([], true)
  | c :: re => (.one (atom c) :: (pieces re).1, (pieces re).2)

/-- What `match(re, text)` is to decide: a match at the start of `text` when `re`
begins with `^`, else a match at the start of some suffix of `text`. -/
def Matches : List Char → List Char → Prop
  | '^' :: re, text => PrefixMatch (pieces re).1 (pieces re).2 text
  | re, text => Occurs (pieces re).1 (pieces re).2 text

theorem atom_accepts (c t : Char) : (atom c).Accepts t ↔ c = '.' ∨ c = t := by
  unfold atom
  split_ifs with dot
  · simp [Atom.Accepts, dot]
  · simp [Atom.Accepts, dot, eq_comm]

end Reference

section Correctness

/-- `matchstar`'s loop tries the rest of the pattern here, then eats one more
character the atom accepts: the unrolling of a starred atom. -/
theorem starLoop_iff {here : List Char → Bool} {ps : List (Piece Char)} {anchored : Bool}
    (spec : ∀ text, here text = true ↔ PrefixMatch ps anchored text) (c : Char) (text : List Char) :
    starLoop here c text = true ↔ PrefixMatch (.star (atom c) :: ps) anchored text := by
  induction text with
  | nil => simp [starLoop, spec, prefixMatch_star []]
  | cons t text ih =>
    have accepts : (t == c || c == '.') = true ↔ (atom c).Accepts t := by
      rw [atom_accepts, Bool.or_eq_true, beq_iff_eq, beq_iff_eq, or_comm, @eq_comm _ t c]
    rw [starLoop, prefixMatch_star, Bool.or_eq_true, spec, Bool.and_eq_true, ih, accepts]
    simp

theorem matchhere_plain {c : Char} {re : List Char} (notStar : ∀ re', re = '*' :: re' → False)
    (notEnd : c = '$' → re = [] → False)
    (spec : ∀ text, matchhere re text = true ↔ PrefixMatch (pieces re).1 (pieces re).2 text) (text : List Char) :
    matchhere (c :: re) text = true ↔ PrefixMatch (pieces (c :: re)).1 (pieces (c :: re)).2 text := by
  rw [pieces.eq_4 c re notStar notEnd, prefixMatch_one]
  cases text with
  | nil => simp [matchhere.eq_5 c re notStar notEnd]
  | cons t text =>
    have accepts : (c == '.' || c == t) = true ↔ (atom c).Accepts t := by
      rw [atom_accepts, Bool.or_eq_true, beq_iff_eq, beq_iff_eq]
    rw [matchhere.eq_4 c re t text notStar notEnd, Bool.and_eq_true, spec, accepts]
    simp

theorem matchhere_iff : (re : List Char) → ∀ text,
    matchhere re text = true ↔ PrefixMatch (pieces re).1 (pieces re).2 text
  | [], text => by simp [matchhere, pieces, prefixMatch_nil]
  | [c], text => by
    by_cases dollar : c = '$'
    · subst dollar
      simp [matchhere, pieces, prefixMatch_nil]
    · exact matchhere_plain (by simp) (fun h _ => dollar h) (matchhere_iff []) text
  | c :: d :: re, text => by
    by_cases star : d = '*'
    · subst star
      rw [matchhere, pieces]
      exact starLoop_iff (matchhere_iff re) c text
    · exact matchhere_plain (by simp [star]) (by simp) (matchhere_iff (d :: re)) text

theorem matchLoop_iff (re text : List Char) :
    matchLoop re text = true ↔ Occurs (pieces re).1 (pieces re).2 text := by
  induction text with
  | nil => rw [matchLoop, matchhere_iff, occurs_nil]
  | cons t text ih => rw [matchLoop, Bool.or_eq_true, matchhere_iff, ih, occurs_cons]

theorem match_iff_matches (re text : List Char) : «match» re text = true ↔ Matches re text := by
  by_cases caret : ∃ re', re = '^' :: re'
  · obtain ⟨re', rfl⟩ := caret
    rw [«match», Matches]
    exact matchhere_iff re' text
  · have other : ∀ re', re = '^' :: re' → False := fun re' same => caret ⟨re', same⟩
    rw [«match».eq_2 re text other, Matches.eq_2 re text other]
    exact matchLoop_iff re text

example : «match» ['^', 'a', '*', 'b', '$'] ['a', 'a', 'b'] = true := by decide

example : «match» ['a', '.', 'c'] ['x', 'a', 'b', 'c', 'y'] = true := by decide

end Correctness

/-! `grep`'s loop. A read of `k` bytes waits for the next burst of input and
returns at most `k` bytes of it; a read of 0 bytes, or one at the end of the
input, returns 0. -/

section Lines

/-- `read(fd, buf+m, k)` on input that arrives in `bursts`: the bytes read and the
input left. -/
def read (k : Nat) : List (List Char) → List Char × List (List Char)
  | [] => ([], [])
  | [] :: bursts => read k bursts
  | (b :: bs) :: bursts => if k = 0 then ([], (b :: bs) :: bursts) else ((b :: bs).take k, (b :: bs).drop k :: bursts)

/-- `strchr(s, c)` (`user/ulib.c`): the characters before the first `c` and those
after it, unless the string ends first. -/
def strchr (c : Char) : List Char → Option (List Char × List Char)
  | [] => none
  | x :: s =>
    if x = '\x00' then none
    else if x = c then some ([], s)
    else (strchr c s).map fun found => (x :: found.1, found.2)

theorem strchr_after_lt {c : Char} : ∀ {s line after : List Char},
    strchr c s = some (line, after) → after.length < s.length
  | x :: s, line, after, found => by
    unfold strchr at found
    split_ifs at found with nul hit
    · simp only [Option.some.injEq, Prod.mk.injEq] at found
      rw [← found.2]
      exact Nat.lt_succ_self _
    · obtain ⟨⟨line', after'⟩, inner, same⟩ := Option.map_eq_some_iff.mp found
      simp only [Prod.mk.injEq] at same
      rw [← same.2]
      exact Nat.lt_succ_of_lt (strchr_after_lt inner)

-- the match hypothesis is read by `decreasing_by` only
set_option linter.unusedVariables false in
/-- The inner loop of `grep`: `while((q = strchr(p, '\n')) != 0)`, each line
found is written with its newline when `match` accepts it. Returns what was
written and the part of the buffer after the last newline. -/
def scanLines (re p : List Char) : List Char × List Char :=
  match found : strchr '\n' p with
  | none => ([], p)
  | some (line, after) =>
    ((if «match» re line then line ++ ['\n'] else []) ++ (scanLines re after).1, (scanLines re after).2)
termination_by p.length
decreasing_by exact strchr_after_lt found

theorem read_flatten (k : Nat) : ∀ bursts : List (List Char),
    (read k bursts).1 ++ (read k bursts).2.flatten = bursts.flatten
  | [] => rfl
  | [] :: bursts => by
    rw [read, read_flatten k bursts, List.flatten_cons, List.nil_append]
  | (b :: bs) :: bursts => by
    unfold read
    split_ifs
    · rfl
    · rw [List.flatten_cons, List.flatten_cons, ← List.append_assoc, List.take_append_drop]

theorem read_length_le (k : Nat) : ∀ bursts : List (List Char), (read k bursts).1.length ≤ k
  | [] => Nat.zero_le k
  | [] :: bursts => by
    rw [read]
    exact read_length_le k bursts
  | (b :: bs) :: bursts => by
    unfold read
    split_ifs
    · exact Nat.zero_le k
    · exact List.length_take_le k _

/-- The outer loop of `grep`: `while((n = read(fd, buf+m, sizeof(buf)-m-1)) > 0)`,
with the `m` bytes kept in `buf`; after the lines are scanned, the rest is moved
to the front of `buf`. -/
def grepLoop (re : List Char) (bursts : List (List Char)) (buf : List Char) : List Char :=
  if 0 < (read (1024 - buf.length - 1) bursts).1.length then
    (scanLines re (buf ++ (read (1024 - buf.length - 1) bursts).1)).1 ++
      grepLoop re (read (1024 - buf.length - 1) bursts).2
        (scanLines re (buf ++ (read (1024 - buf.length - 1) bursts).1)).2
  else []
termination_by bursts.flatten.length
decreasing_by
  have := congrArg List.length (read_flatten (1024 - buf.length - 1) bursts)
  rw [List.length_append] at this
  omega

/-- `grep(pattern, fd)`. -/
def grep (re : List Char) (bursts : List (List Char)) : List Char := grepLoop re bursts []

/-- What `grep` is to write: every newline-terminated line of the input that
`match` accepts, with its newline, in order; `line` is the line read so far. -/
def expectedFrom (re : List Char) (line : List Char) : List Char → List Char
  | [] => []
  | c :: s =>
    if c = '\n' then (if «match» re line then line ++ ['\n'] else []) ++ expectedFrom re [] s
    else expectedFrom re (line ++ [c]) s

def expected (re input : List Char) : List Char := expectedFrom re [] input

theorem expectedFrom_line (re : List Char) {rest : List Char} :
    ∀ {l : List Char} (line : List Char), '\n' ∉ l →
      expectedFrom re line (l ++ '\n' :: rest) =
        (if «match» re (line ++ l) then line ++ l ++ ['\n'] else []) ++ expectedFrom re [] rest
  | [], line, _ => by simp [expectedFrom]
  | c :: l, line, noNewline => by
    have other : c ≠ '\n' := fun same => noNewline (same ▸ List.mem_cons_self)
    rw [List.cons_append, expectedFrom, if_neg other,
      expectedFrom_line re (line ++ [c]) (fun inside => noNewline (List.mem_cons_of_mem c inside))]
    simp

theorem strchr_of_not_mem {c : Char} : ∀ {s : List Char}, c ∉ s → strchr c s = none
  | [], _ => rfl
  | x :: s, absent => by
    have other : x ≠ c := fun same => absent (same ▸ List.mem_cons_self)
    unfold strchr
    rw [strchr_of_not_mem (fun inside => absent (List.mem_cons_of_mem x inside))]
    split_ifs <;> rfl

theorem scanLines_of_none {re p : List Char} (none : strchr '\n' p = none) : scanLines re p = ([], p) := by
  unfold scanLines
  split
  · rfl
  · simp_all

/-- A buffer that holds the start of a line of at least 1023 bytes fills up:
`sizeof(buf)-m-1` is then 0, the read returns 0 and `grep` stops without
writing anything. The induction follows `grepLoop`, and the invariant is that
the buffer is a prefix of the long line. -/
theorem grepLoop_stalls (re : List Char) {long : List Char} (noNewline : '\n' ∉ long)
    (full : 1023 ≤ long.length) (bursts : List (List Char)) (buf : List Char) (room : buf.length ≤ 1023)
    (start : ∃ t, buf ++ bursts.flatten = long ++ t) : grepLoop re bursts buf = [] := by
  rw [grepLoop]
  split_ifs with got
  · obtain ⟨t, start⟩ := start
    have consumed := read_flatten (1024 - buf.length - 1) bursts
    have bounded := read_length_le (1024 - buf.length - 1) bursts
    have room' : (buf ++ (read (1024 - buf.length - 1) bursts).1).length ≤ 1023 := by
      rw [List.length_append]
      omega
    have start' : buf ++ (read (1024 - buf.length - 1) bursts).1 ++ (read (1024 - buf.length - 1) bursts).2.flatten =
        long ++ t := by
      rw [List.append_assoc, consumed, start]
    -- the buffer is still a prefix of the long line, so it holds no newline
    have inLong : buf ++ (read (1024 - buf.length - 1) bursts).1 <+: long :=
      List.prefix_of_prefix_length_le ⟨_, start'⟩ (List.prefix_append long t) (by omega)
    rw [scanLines_of_none (strchr_of_not_mem fun inside => noNewline (inLong.subset inside)), List.nil_append]
    exact grepLoop_stalls re noNewline full _ _ room' ⟨t, start'⟩
  · rfl
termination_by bursts.flatten.length
decreasing_by
  have := congrArg List.length (read_flatten (1024 - buf.length - 1) bursts)
  rw [List.length_append] at this
  omega

theorem grep_skips_after_long_line (re : List Char) (bursts : List (List Char)) {long rest : List Char}
    (noNewline : '\n' ∉ long) (full : 1023 ≤ long.length) (input : bursts.flatten = long ++ '\n' :: rest) :
    grep re bursts = [] ∧
      expected re bursts.flatten = (if «match» re long then long ++ ['\n'] else []) ++ expected re rest := by
  refine ⟨grepLoop_stalls re noNewline full bursts [] (by simp) ⟨'\n' :: rest, by rw [List.nil_append, input]⟩, ?_⟩
  rw [input, expected, expectedFrom_line re [] noNewline, List.nil_append, expected]

theorem grep_skips_after_long_line_b :
    grep ['b'] [List.replicate 1023 'a' ++ ['\n', 'b', '\n']] = [] ∧
      expected ['b'] [List.replicate 1023 'a' ++ ['\n', 'b', '\n']].flatten =
        (if «match» ['b'] (List.replicate 1023 'a') then List.replicate 1023 'a' ++ ['\n'] else []) ++
          expected ['b'] ['b', '\n'] ∧
      expected ['b'] ['b', '\n'] = ['b', '\n'] := by
  have noNewline : '\n' ∉ List.replicate 1023 'a' := fun inside =>
    absurd (List.eq_of_mem_replicate inside) (by decide)
  have skipped := grep_skips_after_long_line ['b'] [List.replicate 1023 'a' ++ ['\n', 'b', '\n']] noNewline
    (by rw [List.length_replicate]) (by rw [List.flatten_cons, List.flatten_nil, List.append_nil])
  exact ⟨skipped.1, skipped.2, by decide⟩

end Lines

end Xv6.Grep
