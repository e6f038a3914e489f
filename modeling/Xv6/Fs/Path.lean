import Mathlib
import Xv6.Param

/-!
Path names in `kernel/fs.c`: `skipelem` cuts the next element off a path, and
`namex` walks the elements from the root or the working directory, calling
`dirlookup` in each directory. A path is the list of its characters before the
NUL; the name buffer is a list of bytes, of which `memmove` overwrites a prefix.

`dirlookup`'s scan of the directory's entries is not modelled here: a directory
is given by its entries keyed by what `namecmp` compares, at most `DIRSIZ`
bytes of a name up to its NUL. `ilock`, `iget` and the reference counts are
left out, as is `ilock`'s panic on an inode without a type.

The meaning of a path is the list of its components, the maximal non-empty runs
of characters other than `/`, and the inode reached by looking each one up in
turn.
-/

namespace Xv6.Paths

section Model

/-- `while(*path == '/') path++`. -/
def skipSlashes : List Char → List Char
  | '/' :: path => skipSlashes path
  | path => path

/-- What `skipelem`'s `memmove` leaves in `name` for an element `s`: its first
`DIRSIZ` bytes when it is that long, else `s` and a NUL, the rest of `name`
unchanged. -/
def copyName (s name : List Char) : List Char :=
  if dirSiz ≤ s.length then s.take dirSiz ++ name.drop dirSiz
  else s ++ '\x00' :: name.drop (s.length + 1)

/-- `skipelem(path, name)`: the path after the next element and the slashes that
follow it, and the name buffer; `none` where it returns 0. -/
def skipelem (path name : List Char) : Option (List Char × List Char) :=
  match skipSlashes path with
  | [] => none
  | c :: path =>
    some (skipSlashes ((c :: path).dropWhile (· != '/')), copyName ((c :: path).takeWhile (· != '/')) name)

/-- What `namecmp` reads of a name buffer: at most `DIRSIZ` bytes, up to a NUL. -/
def nameKey (name : List Char) : List Char := (name.takeWhile (· != '\x00')).take dirSiz

/-- The directories `namex` walks: whether an inode is a directory, and the
inode a directory's entry names, by the name `namecmp` compares. -/
structure Dirs where
  isDir : Nat → Bool
  entry : Nat → List Char → Option Nat

/-- `dirlookup(dp, name, 0)`. -/
def dirlookup (dirs : Dirs) (dp : Nat) (name : List Char) : Option Nat := dirs.entry dp (nameKey name)

theorem skipSlashes_suffix : ∀ path : List Char, skipSlashes path <:+ path
  | '/' :: path => (skipSlashes_suffix path).trans (List.suffix_cons _ _)
  | [] => List.suffix_refl _
  | c :: path => by
    by_cases slash : c = '/'
    · subst slash
      exact (skipSlashes_suffix path).trans (List.suffix_cons _ _)
    · rw [skipSlashes.eq_2 _ (by simpa using slash)]

/-- `skipSlashes` stops at a character other than `/`. -/
theorem skipSlashes_head {c : Char} {rest : List Char} : ∀ {path : List Char}, skipSlashes path = c :: rest → c ≠ '/'
  | [], stopped => by simp [skipSlashes] at stopped
  | d :: path, stopped => by
    by_cases slash : d = '/'
    · subst slash
      rw [skipSlashes] at stopped
      exact skipSlashes_head stopped
    · rw [skipSlashes.eq_2 _ (by simpa using slash)] at stopped
      obtain ⟨rfl, -⟩ := List.cons.inj stopped
      exact slash

theorem skipelem_shorter {path name path' name' : List Char} (found : skipelem path name = some (path', name')) :
    path'.length < path.length := by
  unfold skipelem at found
  split at found
  · cases found
  · rename_i c rest skipped
    simp only [Option.some.injEq, Prod.mk.injEq] at found
    rw [← found.1]
    have dropped : List.dropWhile (· != '/') (c :: rest) = List.dropWhile (· != '/') rest := by
      simp [skipSlashes_head skipped]
    calc (skipSlashes (List.dropWhile (· != '/') (c :: rest))).length
        ≤ (List.dropWhile (· != '/') (c :: rest)).length := (skipSlashes_suffix _).length_le
      _ = (List.dropWhile (· != '/') rest).length := by rw [dropped]
      _ ≤ rest.length := (List.dropWhile_suffix _).length_le
      _ < (c :: rest).length := Nat.lt_succ_self _
      _ ≤ path.length := by
        rw [← skipped]
        exact (skipSlashes_suffix path).length_le

-- the match hypothesis is read by `decreasing_by` only
set_option linter.unusedVariables false in
/-- The loop of `namex(path, nameiparent, name)`, at inode `ip`: the inode it
returns, `none` for 0, and the name buffer. -/
def namexLoop (dirs : Dirs) (nameiparent : Bool) (ip : Nat) (path name : List Char) : Option Nat × List Char :=
  match found : skipelem path name with
  | none => (if nameiparent then none else some ip, name)
  | some (path', name') =>
    if !dirs.isDir ip then (none, name')
    -- stop one level early
    else if nameiparent && path'.isEmpty then (some ip, name')
    else
      match dirlookup dirs ip name' with
      | none => (none, name')
      | some next => namexLoop dirs nameiparent next path' name'
termination_by path.length
decreasing_by exact skipelem_shorter found

/-- The inode `namex` starts from: the root for a path starting with `/`, else
the working directory. -/
def start (cwd : Nat) (path : List Char) : Nat := if path.head? = some '/' then rootIno else cwd

/-- `namex(path, nameiparent, name)` for a process whose working directory is `cwd`. -/
def namex (dirs : Dirs) (cwd : Nat) (path : List Char) (nameiparent : Bool) (name : List Char) :
    Option Nat × List Char :=
  namexLoop dirs nameiparent (start cwd path) path name

/-- `namei(path)`; its name buffer holds `name` before the call. -/
def namei (dirs : Dirs) (cwd : Nat) (path name : List Char) : Option Nat := (namex dirs cwd path false name).1

/-- `nameiparent(path, name)`. -/
def nameiparent (dirs : Dirs) (cwd : Nat) (path name : List Char) : Option Nat × List Char :=
  namex dirs cwd path true name

end Model

section Components

/-- The components of a path: its maximal non-empty runs of characters other than `/`. -/
def components (path : List Char) : List (List Char) := (path.splitOn '/').filter fun c => !c.isEmpty

theorem components_nil : components [] = [] := by decide

theorem components_slash (path : List Char) : components ('/' :: path) = components path := by
  simp [components, List.splitOn_cons_eq_if_modifyHead]

theorem components_skipSlashes : ∀ path : List Char, components (skipSlashes path) = components path
  | '/' :: path => by rw [skipSlashes, components_skipSlashes path, components_slash]
  | [] => rfl
  | c :: path => by
    by_cases slash : c = '/'
    · subst slash
      rw [skipSlashes, components_skipSlashes path, components_slash]
    · rw [skipSlashes.eq_2 _ (by simpa using slash)]

/-- A path that starts with a character other than `/` has the run up to the
next `/` as its first component. -/
theorem components_elem {c : Char} {rest : List Char} (notSlash : c ≠ '/') :
    components (c :: rest) =
      (c :: rest).takeWhile (· != '/') :: components ((c :: rest).dropWhile (· != '/')) := by
  have noSlash : '/' ∉ (c :: rest).takeWhile (· != '/') := fun inside => by
    simpa using List.mem_takeWhile_imp inside
  have nonempty : ((c :: rest).takeWhile (· != '/')).isEmpty = false := by
    simp [notSlash]
  conv_lhs => rw [← List.takeWhile_append_dropWhile (p := (· != '/')) (l := c :: rest)]
  cases dropped : (c :: rest).dropWhile (· != '/') with
  | nil =>
    rw [List.append_nil, components, List.splitOn_eq_singleton noSlash, components_nil]
    simp [nonempty]
  | cons d after =>
    -- the run stops at a `/`
    have slash : d = '/' := by
      have := List.head_dropWhile_not (· != '/') (l := c :: rest) (by simp [dropped])
      simp only [dropped, List.head_cons, bne_eq_false_iff_eq] at this
      exact this
    subst slash
    rw [components_slash, components, List.splitOn_append_cons_self_of_not_mem noSlash]
    simp [nonempty, components]

theorem components_eq_nil_iff : ∀ path : List Char, components path = [] ↔ ∀ ch ∈ path, ch = '/'
  | [] => by simp [components_nil]
  | c :: path => by
    by_cases slash : c = '/'
    · subst slash
      rw [components_slash, components_eq_nil_iff path]
      simp
    · rw [components_elem slash]
      simp [slash]

end Components

section Skipelem

theorem skipelem_eq_none_iff (path name : List Char) : skipelem path name = none ↔ components path = [] := by
  rw [← components_skipSlashes path]
  unfold skipelem
  split
  · rename_i skipped
    simp [skipped, components_nil]
  · rename_i c rest skipped
    simp [skipped, components_elem (skipSlashes_head skipped)]

/-- Each `skipelem` takes off the first component: the path it returns has the
other components and does not start with `/`, and it lies inside `path`, as
does the component. -/
theorem skipelem_of_components {path c : List Char} (name : List Char) {cs : List (List Char)}
    (comps : components path = c :: cs) :
    ∃ rest, skipelem path name = some (rest, copyName c name) ∧ components rest = cs ∧
      rest.head? ≠ some '/' ∧ rest <:+ path ∧ c <:+: path := by
  rw [← components_skipSlashes path] at comps
  unfold skipelem
  split
  · rename_i skipped
    rw [skipped, components_nil] at comps
    cases comps
  · rename_i d rest skipped
    rw [skipped, components_elem (skipSlashes_head skipped)] at comps
    obtain ⟨rfl, rfl⟩ := List.cons.inj comps
    have inside : d :: rest <:+ path := skipped ▸ skipSlashes_suffix path
    refine ⟨_, rfl, components_skipSlashes _, ?_, ?_, ?_⟩
    · cases after : skipSlashes (List.dropWhile (· != '/') (d :: rest)) with
      | nil => simp
      | cons e more => simpa using skipSlashes_head after
    · exact (skipSlashes_suffix _).trans ((List.dropWhile_suffix _).trans inside)
    · exact (List.takeWhile_prefix _).isInfix.trans inside.isInfix

-- `skipelem("///a//bb", name) = "bb"`, setting `name = "a"`, from the comment above it
example : skipelem ['/', '/', '/', 'a', '/', '/', 'b', 'b'] [] = some (['b', 'b'], ['a', '\x00']) := by decide

theorem nameKey_copyName {s : List Char} (noNul : '\x00' ∉ s) (name : List Char) :
    nameKey (copyName s name) = s.take dirSiz := by
  have kept : ∀ x ∈ s, (x != '\x00') = true := fun x inside => by
    simpa using fun same : x = '\x00' => noNul (same ▸ inside)
  unfold copyName nameKey
  split_ifs with long
  · rw [List.takeWhile_append_of_pos fun x inside => kept x (List.mem_of_mem_take inside),
      List.take_append_of_le_length (by simp; omega), List.take_take, Nat.min_self]
  · rw [List.takeWhile_append_of_pos kept]
    simp

theorem nul_mem_copyName {s : List Char} (noNul : '\x00' ∉ s) (name : List Char) :
    '\x00' ∈ (copyName s name).take dirSiz ↔ s.length < dirSiz := by
  unfold copyName
  split_ifs with long
  · rw [List.take_append_of_le_length (by simp; omega), List.take_take, Nat.min_self]
    exact ⟨fun inside => absurd (List.mem_of_mem_take inside) noNul, fun short => by omega⟩
  · refine ⟨fun _ => by omega, fun short => ?_⟩
    rw [List.take_append, List.mem_append]
    right
    obtain ⟨k, hk⟩ : ∃ k, dirSiz - s.length = k + 1 := ⟨dirSiz - s.length - 1, by omega⟩
    rw [hk]
    simp

end Skipelem

/-! What `namex` is to return: the inode reached by looking up each component in
turn, from `ip`, each in a directory; for `nameiparent`, the directory that
holds the last component. -/

section Walk

/-- The inode reached from `ip` along the components `cs`. -/
def walk (dirs : Dirs) (ip : Nat) : List (List Char) → Option Nat
  | [] => some ip
  | c :: cs => if dirs.isDir ip then (dirs.entry ip (c.take dirSiz)).bind fun next => walk dirs next cs else none

/-- The directory reached from `ip` along all components of `cs` but the last. -/
def walkParent (dirs : Dirs) (ip : Nat) : List (List Char) → Option Nat
  | [] => none
  | [_] => if dirs.isDir ip then some ip else none
  | c :: cs => if dirs.isDir ip then (dirs.entry ip (c.take dirSiz)).bind fun next => walkParent dirs next cs else none

variable (dirs : Dirs)

/-- A `skipelem` that finds an element takes off the first component. -/
theorem skipelem_some {path name path' name' : List Char} (found : skipelem path name = some (path', name')) :
    ∃ c, components path = c :: components path' ∧ name' = copyName c name ∧ path'.head? ≠ some '/' ∧
      path' <:+ path ∧ c <:+: path := by
  cases comps : components path with
  | nil =>
    rw [← skipelem_eq_none_iff path name] at comps
    rw [comps] at found
    cases found
  | cons c cs =>
    obtain ⟨rest, found', restComps, head, inside, elemInside⟩ := skipelem_of_components name comps
    rw [found] at found'
    simp only [Option.some.injEq, Prod.mk.injEq] at found'
    obtain ⟨rfl, rfl⟩ := found'
    exact ⟨c, by rw [restComps], rfl, head, inside, elemInside⟩

theorem namexLoop_walk (ip : Nat) (path name : List Char) (cstr : '\x00' ∉ path) :
    (namexLoop dirs false ip path name).1 = walk dirs ip (components path) := by
  rw [namexLoop]
  split
  · rename_i notFound
    rw [(skipelem_eq_none_iff path name).mp notFound]
    rfl
  · rename_i path' name' found
    obtain ⟨c, comps, rfl, -, inside, elemInside⟩ := skipelem_some found
    have noNul : '\x00' ∉ c := fun nul => cstr (elemInside.subset nul)
    rw [comps, walk]
    by_cases dir : dirs.isDir ip
    · simp only [dir, Bool.not_true, Bool.false_eq_true, if_false, Bool.false_and, if_true, dirlookup,
        nameKey_copyName noNul]
      cases entry : dirs.entry ip (c.take dirSiz) with
      | none => rfl
      | some next => exact namexLoop_walk next path' _ fun nul => cstr (inside.subset nul)
    · simp [dir]
termination_by path.length
decreasing_by exact skipelem_shorter found

theorem components_ne_nil {path : List Char} (nonempty : path ≠ []) (head : path.head? ≠ some '/') :
    components path ≠ [] := by
  rw [Ne, components_eq_nil_iff]
  intro slashes
  cases path with
  | nil => exact nonempty rfl
  | cons c rest => exact head (by simp [slashes c List.mem_cons_self])

theorem namexLoop_parent (ip : Nat) (path name : List Char) (cstr : '\x00' ∉ path) :
    (namexLoop dirs true ip path name).1 = walkParent dirs ip (components path) ∧
      ∀ p, (namexLoop dirs true ip path name).1 = some p →
        (components path).getLast?.map (·.take dirSiz) = some (nameKey (namexLoop dirs true ip path name).2) := by
  rw [namexLoop]
  split
  · rename_i notFound
    rw [(skipelem_eq_none_iff path name).mp notFound]
    exact ⟨rfl, fun p none => by cases none⟩
  · rename_i path' name' found
    obtain ⟨c, comps, rfl, head, inside, elemInside⟩ := skipelem_some found
    have noNul : '\x00' ∉ c := fun nul => cstr (elemInside.subset nul)
    rw [comps]
    by_cases dir : dirs.isDir ip
    · by_cases last : path'.isEmpty
      -- the last component: `ip` is its directory
      · have done : components path' = [] := by
          rw [List.isEmpty_iff.mp last, components_nil]
        simp only [dir, last, done, Bool.not_true, Bool.false_eq_true, if_false, Bool.and_self, if_true,
          walkParent, List.getLast?_singleton, Option.map_some, nameKey_copyName noNul]
        exact ⟨trivial, fun _ _ => trivial⟩
      · obtain ⟨c', cs', more⟩ := List.exists_cons_of_ne_nil
          (components_ne_nil (fun empty => last (List.isEmpty_iff.mpr empty)) head)
        simp only [dir, last, Bool.not_true, Bool.false_eq_true, if_false, Bool.and_false, dirlookup,
          nameKey_copyName noNul, more, walkParent, if_true]
        cases entry : dirs.entry ip (c.take dirSiz) with
        | none => exact ⟨rfl, fun _ none => by cases none⟩
        | some next =>
          have below := namexLoop_parent next path' (copyName c name) fun nul => cstr (inside.subset nul)
          rw [more] at below
          refine ⟨below.1, fun p found' => ?_⟩
          rw [List.getLast?_cons_cons]
          exact below.2 p found'
    · have lost : walkParent dirs ip (c :: components path') = none := by
        cases components path' <;> simp [walkParent, dir]
      simp only [dir, Bool.not_false, if_true, lost]
      exact ⟨trivial, fun _ none => by cases none⟩
termination_by path.length
decreasing_by exact skipelem_shorter found

end Walk

theorem path_resolution (dirs : Dirs) (cwd : Nat) (path name : List Char) (cstr : '\x00' ∉ path) :
    (skipelem path name = none ↔ ∀ ch ∈ path, ch = '/') ∧
    (∀ c cs, components path = c :: cs →
      ∃ rest, skipelem path name = some (rest, copyName c name) ∧
        nameKey (copyName c name) = c.take dirSiz ∧
        ('\x00' ∈ (copyName c name).take dirSiz ↔ c.length < dirSiz) ∧
        components rest = cs ∧ rest.head? ≠ some '/') ∧
    namei dirs cwd path name = walk dirs (start cwd path) (components path) ∧
    (nameiparent dirs cwd path name).1 = walkParent dirs (start cwd path) (components path) ∧
    (∀ p, (nameiparent dirs cwd path name).1 = some p →
      (components path).getLast?.map (·.take dirSiz) = some (nameKey (nameiparent dirs cwd path name).2)) := by
  refine ⟨by rw [skipelem_eq_none_iff, components_eq_nil_iff], fun c cs comps => ?_,
    namexLoop_walk dirs _ path name cstr, (namexLoop_parent dirs _ path name cstr).1,
    (namexLoop_parent dirs _ path name cstr).2⟩
  obtain ⟨rest, found, restComps, head, -, elemInside⟩ := skipelem_of_components name comps
  have noNul : '\x00' ∉ c := fun nul => cstr (elemInside.subset nul)
  exact ⟨rest, found, nameKey_copyName noNul name, nul_mem_copyName noNul name, restComps, head⟩

theorem path_resolution_root :
    '\x00' ∉ ['/', 'a'] ∧
      namei ⟨fun _ => true, fun _ _ => some 2⟩ 3 ['/', 'a'] [] =
        walk ⟨fun _ => true, fun _ _ => some 2⟩ (start 3 ['/', 'a']) (components ['/', 'a']) :=
  ⟨by decide, (path_resolution ⟨fun _ => true, fun _ _ => some 2⟩ 3 ['/', 'a'] [] (by decide)).2.2.1⟩

end Xv6.Paths
