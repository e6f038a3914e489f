import Mathlib.Computability.Language

/-!
Patterns made of one-character atoms, each on its own or starred, and the
languages they denote in Mathlib's `Language`. A backtracking matcher answers
two questions about such a pattern: does it match a prefix of the text (with
the rest of the text empty when the pattern is anchored at the end), and does
it match so in some suffix. The lemmas here unroll both one atom or one
character at a time, in the order a matcher recurses, so that a matcher is
shown correct without unfolding the languages.
-/

namespace StarPattern

/-- A one-character atom: a given character, or any character. -/
inductive Atom (α : Type*) where
  | lit (a : α)
  | any

/-- An atom on its own, or followed by a star. -/
inductive Piece (α : Type*) where
  | one (a : Atom α)
  | star (a : Atom α)

variable {α : Type*}

def Atom.Accepts : Atom α → α → Prop
  | .lit a, t => t = a
  | .any, _ => True

def Atom.lang (a : Atom α) : Language α := {w | ∃ t, a.Accepts t ∧ w = [t]}

def Piece.lang : Piece α → Language α
  | .one a => a.lang
  | .star a => KStar.kstar a.lang

/-- The language of a pattern: its pieces' languages, concatenated. -/
def lang (ps : List (Piece α)) : Language α := (ps.map Piece.lang).prod

/-- `ps` matches a prefix of `text`, and when `anchored` that prefix is all of it. -/
def PrefixMatch (ps : List (Piece α)) (anchored : Bool) (text : List α) : Prop :=
  ∃ u v, text = u ++ v ∧ u ∈ lang ps ∧ (anchored = true → v = [])

/-- Some suffix of `text` has a prefix that `ps` matches. -/
def Occurs (ps : List (Piece α)) (anchored : Bool) (text : List α) : Prop :=
  ∃ pre suf, text = pre ++ suf ∧ PrefixMatch ps anchored suf

section Languages

variable {a : Atom α} {p : Piece α} {ps : List (Piece α)} {w : List α}

theorem mem_lang_nil : w ∈ lang ([] : List (Piece α)) ↔ w = [] := Language.mem_one w

theorem mem_lang_cons : w ∈ lang (p :: ps) ↔ ∃ u ∈ p.lang, ∃ v ∈ lang ps, u ++ v = w := by
  rw [lang, List.map_cons, List.prod_cons]
  exact Language.mem_mul

theorem mem_atom_lang : w ∈ a.lang ↔ ∃ t, a.Accepts t ∧ w = [t] := Iff.rfl

/-- A word of `a*` is empty, or one accepted character before another word of `a*`. -/
theorem mem_kstar_atom :
    w ∈ KStar.kstar a.lang ↔ w = [] ∨ ∃ t w', w = t :: w' ∧ a.Accepts t ∧ w' ∈ KStar.kstar a.lang := by
  conv_lhs => rw [← Language.one_add_self_mul_kstar_eq_kstar]
  rw [Language.mem_add, Language.mem_one, Language.mem_mul]
  constructor
  · rintro (empty | ⟨_, ⟨t, accepts, rfl⟩, w', more, rfl⟩)
    · exact Or.inl empty
    · exact Or.inr ⟨t, w', rfl, accepts, more⟩
  · rintro (empty | ⟨t, w', rfl, accepts, more⟩)
    · exact Or.inl empty
    · exact Or.inr ⟨[t], ⟨t, accepts, rfl⟩, w', more, rfl⟩

end Languages

section Prefixes

variable {a : Atom α} {ps : List (Piece α)} {anchored : Bool}

theorem prefixMatch_nil (text : List α) :
    PrefixMatch ([] : List (Piece α)) anchored text ↔ (anchored = true → text = []) := by
  simp only [PrefixMatch, mem_lang_nil]
  constructor
  · rintro ⟨u, v, rfl, rfl, rest⟩
    exact rest
  · intro rest
    exact ⟨[], text, rfl, rfl, rest⟩

theorem prefixMatch_one (text : List α) :
    PrefixMatch (.one a :: ps) anchored text ↔
      ∃ t rest, text = t :: rest ∧ a.Accepts t ∧ PrefixMatch ps anchored rest := by
  simp only [PrefixMatch, mem_lang_cons, Piece.lang, mem_atom_lang]
  constructor
  · rintro ⟨_, v, rfl, ⟨_, ⟨t, accepts, rfl⟩, u, matched, rfl⟩, rest⟩
    exact ⟨t, u ++ v, rfl, accepts, u, v, rfl, matched, rest⟩
  · rintro ⟨t, _, rfl, accepts, u, v, rfl, matched, rest⟩
    exact ⟨t :: u, v, rfl, ⟨[t], ⟨t, accepts, rfl⟩, u, matched, rfl⟩, rest⟩

theorem prefixMatch_star (text : List α) :
    PrefixMatch (.star a :: ps) anchored text ↔
      PrefixMatch ps anchored text ∨
        ∃ t rest, text = t :: rest ∧ a.Accepts t ∧ PrefixMatch (.star a :: ps) anchored rest := by
  simp only [PrefixMatch, mem_lang_cons, Piece.lang]
  constructor
  · rintro ⟨_, v, rfl, ⟨s, starred, u, matched, rfl⟩, rest⟩
    rcases mem_kstar_atom.mp starred with rfl | ⟨t, s', rfl, accepts, more⟩
    · exact Or.inl ⟨u, v, by simp, matched, rest⟩
    · exact Or.inr ⟨t, s' ++ u ++ v, by simp, accepts, s' ++ u, v, rfl, ⟨s', more, u, matched, rfl⟩, rest⟩
  · rintro (⟨u, v, rfl, matched, rest⟩ | ⟨t, _, rfl, accepts, _, v, rfl, ⟨s, starred, u, matched, rfl⟩, rest⟩)
    · exact ⟨u, v, rfl, ⟨[], Language.nil_mem_kstar _, u, matched, rfl⟩, rest⟩
    · refine ⟨t :: (s ++ u), v, rfl, ⟨t :: s, ?_, u, matched, rfl⟩, rest⟩
      exact mem_kstar_atom.mpr (Or.inr ⟨t, s, rfl, accepts, starred⟩)

end Prefixes

section Search

variable {ps : List (Piece α)} {anchored : Bool}

theorem occurs_nil : Occurs ps anchored [] ↔ PrefixMatch ps anchored [] := by
  constructor
  · rintro ⟨pre, suf, split, matched⟩
    rw [(List.append_eq_nil_iff.mp split.symm).2] at matched
    exact matched
  · intro matched
    exact ⟨[], [], rfl, matched⟩

theorem occurs_cons (t : α) (text : List α) :
    Occurs ps anchored (t :: text) ↔ PrefixMatch ps anchored (t :: text) ∨ Occurs ps anchored text := by
  constructor
  · rintro ⟨pre, suf, split, matched⟩
    cases pre with
    | nil => exact Or.inl (by simpa [split] using matched)
    | cons s pre =>
      simp only [List.cons_append, List.cons.injEq] at split
      exact Or.inr ⟨pre, suf, split.2, matched⟩
  · rintro (matched | ⟨pre, suf, rfl, matched⟩)
    · exact ⟨[], t :: text, rfl, matched⟩
    · exact ⟨t :: pre, suf, rfl, matched⟩

end Search

end StarPattern
