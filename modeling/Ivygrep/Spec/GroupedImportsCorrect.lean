import Ivygrep.Native.GroupedImports
import Ivygrep.Spec.StrCorrect
import Ivygrep.Spec.OverlayScan

/-!
# Grouped imports expand to their leaves

A `use` tree and its text, and when `expand_grouped_spec` returns the paths of its leaves. It does
so for the trees whose lists have members and no trailing comma; a list that ends in a comma, or an
empty one, yields its own path once more as a path with nothing after the separator.

## Key results

- `expandPath_word`: the paths of a text without a group
- `UseTree.agrees`: what the text of a tree below a path expands to
- `expandGroupedSpec_exact`: when a tree expands to its leaves
- `trailing_comma_invents_leaf`: a tree that does not
-/

namespace Ivygrep.Native

open ForStd.Brackets

/-! ## Use trees -/

/-- A character of an identifier: neither white space nor a mark that a `use` tree has. -/
def isIdentChar (c : Char) : Bool := !isWhitespace c && !"{},:.\\/*".toList.contains c

structure Ident where
  text : Str
  ne_nil : text ≠ []
  plain : ∀ c ∈ text, isIdentChar c = true

structure Gap where
  text : Str
  blank : ∀ c ∈ text, isWhitespace c = true

/-- The part of a member after its path: `as` and the name. -/
structure AsName where
  left : Gap
  left_ne : left.text ≠ []
  right : Gap
  right_ne : right.text ≠ []
  name : Ident

/-- What stands between the names of a path. -/
inductive Separator where
  | colons
  | dot
  | backslash
deriving DecidableEq

def Separator.text : Separator → Str
  | .colons => "::".toList
  | .dot => ".".toList
  | .backslash => "\\".toList

mutual

/-- A `use` tree: a name, everything, or a list of trees, below a path. -/
inductive UseTree where
  | leaf (path : List Ident) (name : Ident) (asName : Option AsName)
  | glob (path : List Ident)
  | group (path : List Ident) (members : UseList)

/-- The members of a group. A list ends with its last member or, after a comma and in an empty
    list, with a gap. -/
inductive UseList where
  | nil (gap : Gap)
  | last (left : Gap) (tree : UseTree) (right : Gap)
  | cons (left : Gap) (tree : UseTree) (right : Gap) (rest : UseList)

end

def AsName.text (asName : AsName) : Str :=
  asName.left.text ++ "as".toList ++ asName.right.text ++ asName.name.text

/-- A path with a separator after each name. -/
def qualified (sep : Separator) (path : List Ident) : Str :=
  path.flatMap fun name => name.text ++ sep.text

def joined (sep : Separator) (path : List Ident) : Str := Str.join sep.text (path.map Ident.text)

mutual

/-- The text of a tree as the source of a program has it. -/
def UseTree.text (sep : Separator) : UseTree → Str
  | .leaf path name asName =>
    qualified sep path ++ name.text ++ (asName.map AsName.text).getD []
  | .glob path => qualified sep path ++ ['*']
  | .group path members => qualified sep path ++ '{' :: members.text sep ++ ['}']

def UseList.text (sep : Separator) : UseList → Str
  | .nil gap => gap.text
  | .last left tree right => left.text ++ tree.text sep ++ right.text
  | .cons left tree right rest =>
    left.text ++ tree.text sep ++ right.text ++ ',' :: rest.text sep

end

mutual

/-- The paths that a tree below a path imports by name, in their order. -/
def UseTree.leaves (above : List Ident) : UseTree → List (List Ident)
  | .leaf path name _ =>
    if name.text = ['_'] then []
    else if name.text = "self".toList then
      if above ++ path = [] then [] else [above ++ path]
    else [above ++ path ++ [name]]
  | .glob _ => []
  | .group path members => members.leaves (above ++ path)

def UseList.leaves (above : List Ident) : UseList → List (List Ident)
  | .nil _ => []
  | .last _ tree _ => tree.leaves above
  | .cons _ tree _ rest => tree.leaves above ++ rest.leaves above

end

/-- A path that starts at the module itself or at the one that contains it. -/
def isModuleRelative : List Ident → Bool
  | first :: _ :: _ => first.text = "self".toList ∨ first.text = "super".toList
  | _ => false

/-! ## Which trees expand to their leaves -/

/-- The last name of a path is read only after `:` or `.`, or when it is all of the path. -/
def Recognized (sep : Separator) (path : List Ident) : Prop := sep = .backslash → path = []

/-- A member whose name and gap do not read as a PHP keyword before a path. -/
def UseTree.KeepsName : UseTree → Prop
  | .leaf [] name (some asName) =>
    name.text = "function".toList ∨ name.text = "const".toList →
      asName.left.text.head? ≠ some ' '
  | _ => True

mutual

/-- The trees below a path that expand to their leaves. -/
def UseTree.ExpandsBelow (sep : Separator) (above : List Ident) : UseTree → Prop
  | .leaf path name _ =>
    name.text = "self".toList ∨ name.text = ['_'] → Recognized sep (above ++ path)
  | .glob path => Recognized sep (above ++ path)
  | .group path members => members.ExpandsBelow sep (above ++ path)

def UseList.ExpandsBelow (sep : Separator) (above : List Ident) : UseList → Prop
  | .nil _ => False
  | .last _ tree _ => tree.KeepsName ∧ tree.ExpandsBelow sep above
  | .cons _ tree _ rest =>
    (tree.KeepsName ∧ tree.ExpandsBelow sep above) ∧ rest.ExpandsBelow sep above

end

/-- The trees that expand to their leaves: no list is empty or ends in a comma, a group without a
    path before it is within another or has no leaves, and no member is misread. -/
def UseTree.Expands (sep : Separator) : UseTree → Prop
  | .group [] members => members.leaves [] = [] ∧ members.ExpandsBelow sep []
  | tree => tree.ExpandsBelow sep []

/-! ## Characters -/

theorem isIdentChar_iff {c : Char} : isIdentChar c = true ↔
    isWhitespace c = false ∧ c ∉ "{},:.\\/*".toList := by
  simp [isIdentChar]

/-- A text without white space and without the marks of a list. -/
def IsSolid (s : Str) : Prop :=
  ∀ c ∈ s, isWhitespace c = false ∧ c ≠ '{' ∧ c ≠ '}' ∧ c ≠ ','

theorem IsSolid.append {left right : Str} (hleft : IsSolid left) (hright : IsSolid right) :
    IsSolid (left ++ right) := by
  intro c hc
  rcases List.mem_append.mp hc with hc | hc
  · exact hleft c hc
  · exact hright c hc

theorem Ident.isSolid (name : Ident) : IsSolid name.text := by
  intro c hc
  obtain ⟨hblank, hmark⟩ := isIdentChar_iff.mp (name.plain c hc)
  refine ⟨hblank, ?_, ?_, ?_⟩ <;> rintro rfl <;> exact hmark (by decide)

theorem Separator.isSolid (sep : Separator) : IsSolid sep.text := by
  cases sep <;> simp [IsSolid, text, isWhitespace]

theorem isSolid_qualified (sep : Separator) (path : List Ident) : IsSolid (qualified sep path) := by
  intro c hc
  obtain ⟨name, _, hname⟩ := List.mem_flatMap.mp hc
  exact name.isSolid.append sep.isSolid c hname

theorem IsSolid.passes {s : Str} (h : IsSolid s) : Passes '{' '}' ',' 0 s :=
  passes_of_forall fun c hc => (h c hc).2

theorem IsSolid.bracket_not_mem {s : Str} (h : IsSolid s) : '{' ∉ s :=
  fun hmem => (h '{' hmem).2.1 rfl

theorem Gap.mark_not_mem (gap : Gap) {c : Char} (hc : isWhitespace c = false) : c ∉ gap.text :=
  fun hmem => by simp [gap.blank c hmem] at hc

theorem Gap.passes (gap : Gap) : Passes '{' '}' ',' 0 gap.text := by
  apply passes_of_forall
  intro c hc
  refine ⟨?_, ?_, ?_⟩ <;> rintro rfl <;> exact gap.mark_not_mem (by decide) hc

theorem AsName.passes (asName : AsName) : Passes '{' '}' ',' 0 asName.text :=
  ((asName.left.passes.append (IsSolid.passes (by simp [IsSolid, isWhitespace]))).append
    asName.right.passes).append asName.name.isSolid.passes

/-! ## Paths -/

@[simp] theorem qualified_nil (sep : Separator) : qualified sep [] = [] := rfl

theorem qualified_append (sep : Separator) (left right : List Ident) :
    qualified sep (left ++ right) = qualified sep left ++ qualified sep right :=
  List.flatMap_append

@[simp] theorem joined_singleton (sep : Separator) (name : Ident) :
    joined sep [name] = name.text := by
  simp [joined, Str.join]

theorem joined_cons_cons (sep : Separator) (first second : Ident) (rest : List Ident) :
    joined sep (first :: second :: rest) =
      first.text ++ sep.text ++ joined sep (second :: rest) := by
  simp [joined, Str.join]

/-- A path before a name is the path of a group and the separator. -/
theorem qualified_eq_joined (sep : Separator) {path : List Ident} (h : path ≠ []) :
    qualified sep path = joined sep path ++ sep.text := by
  induction path with
  | nil => exact absurd rfl h
  | cons first rest ih =>
    cases rest with
    | nil => simp [qualified]
    | cons second rest =>
      rw [joined_cons_cons, List.append_assoc, ← ih (by simp)]
      simp [qualified]

theorem joined_append_singleton (sep : Separator) (path : List Ident) (name : Ident) :
    joined sep (path ++ [name]) = qualified sep path ++ name.text := by
  induction path with
  | nil => simp
  | cons first rest ih =>
    cases rest with
    | nil => simp [joined_cons_cons, qualified]
    | cons second rest =>
      rw [List.cons_append, List.cons_append, joined_cons_cons, ← List.cons_append, ih]
      simp [qualified]

theorem joined_ne_nil (sep : Separator) {path : List Ident} (h : path ≠ []) :
    joined sep path ≠ [] := by
  cases path with
  | nil => exact absurd rfl h
  | cons first rest =>
    cases rest with
    | nil => simpa using first.ne_nil
    | cons second rest => simp [joined_cons_cons, first.ne_nil]

/-! ## The text before a member -/

/-- What the text of a tree is expanded below: nothing, or the separator that a group without a
    path gets. -/
def IsBase (base : Str) : Prop := base = [] ∨ base = "::".toList

theorem IsBase.isSolid {base : Str} (h : IsBase base) : IsSolid base := by
  rcases h with rfl | rfl <;> simp [IsSolid, isWhitespace]

theorem stripSuffix_of_getLast?_ne {s pattern : Str} {c : Char} (hpattern : pattern.getLast? = some c)
    (h : s.getLast? ≠ some c) : Str.stripSuffix s pattern = none := by
  cases hstrip : Str.stripSuffix s pattern with
  | none => rfl
  | some rest =>
    rw [eq_append_of_stripSuffix hstrip, List.getLast?_append, hpattern] at h
    exact absurd rfl h

theorem splitSeparator_append (s : Str) (sep : Separator) :
    splitSeparator (s ++ sep.text) = (s, sep.text) := by
  have hnone : ∀ {pattern : Str} {c last : Char}, pattern.getLast? = some c → last ≠ c →
      Str.stripSuffix (s ++ [last]) pattern = none := fun hpattern hne =>
    stripSuffix_of_getLast?_ne hpattern (by simpa using hne)
  unfold splitSeparator
  cases sep with
  | colons => rw [show Separator.colons.text = "::".toList from rfl, stripSuffix_append]
  | dot =>
    rw [show Separator.dot.text = ".".toList from rfl, stripSuffix_append,
      show s ++ ".".toList = s ++ ['.'] from rfl, hnone (c := ':') rfl (by decide)]
  | backslash =>
    rw [show Separator.backslash.text = "\\".toList from rfl, stripSuffix_append,
      show s ++ "\\".toList = s ++ ['\\'] from rfl, hnone (c := ':') rfl (by decide),
      hnone (c := '.') rfl (by decide)]

/-- The base below a path: a group without a path is expanded below `::`. -/
def memberBase (base : Str) (path : List Ident) : Str := if path = [] then "::".toList else base

/-- A member is expanded below the path of its group. -/
theorem nestedSpec_eq {base : Str} (hbase : IsBase base) (sep : Separator) (path : List Ident)
    (member : Str) :
    nestedSpec (base ++ qualified sep path) member =
      memberBase base path ++ qualified sep path ++ stripImportKeyword (Str.trim member) := by
  by_cases hpath : path = []
  · subst hpath
    rcases hbase with rfl | rfl <;> rfl
  · rw [nestedSpec, qualified_eq_joined sep hpath, ← List.append_assoc, splitSeparator_append]
    simp [memberBase, hpath]

/-! ## Texts without a group -/

theorem terminalName_append {word : Str} (hword : ∀ c ∈ word, c ≠ ':' ∧ c ≠ '.') (front : Str) :
    terminalName (front ++ word) = terminalName front ++ word := by
  unfold terminalName List.rtakeWhile
  rw [List.reverse_append, List.takeWhile_append_of_pos fun c hc => by
    simpa using hword c (List.mem_reverse.mp hc)]
  simp

theorem terminalName_append_singleton {c : Char} (hc : c = ':' ∨ c = '.') (front : Str) :
    terminalName (front ++ [c]) = [] := by
  rcases hc with rfl | rfl <;> simp [terminalName]

/-- A recognized path ends where the next name starts. -/
theorem terminalName_recognized {base : Str} (hbase : IsBase base) {sep : Separator}
    {path : List Ident} (h : Recognized sep path) :
    terminalName (base ++ qualified sep path) = [] := by
  by_cases hpath : path = []
  · subst hpath
    rcases hbase with rfl | rfl <;> rfl
  · rw [qualified_eq_joined sep hpath, ← List.append_assoc]
    cases sep with
    | colons =>
      have hend := terminalName_append_singleton (.inl rfl) (base ++ joined .colons path ++ [':'])
      simpa [Separator.text] using hend
    | dot => exact terminalName_append_singleton (.inr rfl) _
    | backslash => exact absurd (h rfl) hpath

/-- After a backslash the last name is taken for more than it is. -/
theorem backslash_mem_terminalName (base : Str) {sep : Separator} {path : List Ident}
    (h : ¬ Recognized sep path) : '\\' ∈ terminalName (base ++ qualified sep path) := by
  simp only [Recognized, Classical.not_imp] at h
  obtain ⟨rfl, hpath⟩ := h
  rw [qualified_eq_joined _ hpath, ← List.append_assoc, terminalName_append (by simp [Separator.text])]
  simp [Separator.text]

theorem firstWord_append {target rest : Str} (htarget : ∀ c ∈ target, isWhitespace c = false)
    (hne : target ≠ []) (hrest : ∀ c, rest.head? = some c → isWhitespace c = true) :
    Str.firstWord (target ++ rest) = target := by
  have hstart : Str.trimStart (target ++ rest) = target ++ rest := by
    cases target with
    | nil => exact absurd rfl hne
    | cons first target =>
      rw [Str.trimStart, List.cons_append, List.dropWhile_cons_of_neg (by simp [htarget first])]
  rw [Str.firstWord, hstart, List.takeWhile_append_of_pos fun c hc => by simp [htarget c hc]]
  cases rest with
  | nil => simp
  | cons c rest => rw [List.takeWhile_cons_of_neg (by simp [hrest c rfl]), List.append_nil]

/-- A word of a path: neither white space nor one of the marks at which the last name starts. -/
def IsWord (word : Str) : Prop := ∀ c ∈ word, isWhitespace c = false ∧ c ≠ ':' ∧ c ≠ '.'

theorem Ident.isWord (name : Ident) : IsWord name.text := by
  intro c hc
  obtain ⟨hblank, hmark⟩ := isIdentChar_iff.mp (name.plain c hc)
  refine ⟨hblank, ?_, ?_⟩ <;> rintro rfl <;> exact hmark (by decide)

section

variable {base word rest : Str} {sep : Separator} {path : List Ident}

theorem firstWord_word (hbase : IsBase base) (hword : IsWord word)
    (hne : base ++ qualified sep path ++ word ≠ [])
    (hrest : ∀ c, rest.head? = some c → isWhitespace c = true) :
    Str.firstWord (base ++ qualified sep path ++ word ++ rest) =
      base ++ qualified sep path ++ word := by
  refine firstWord_append (fun c hc => ?_) hne hrest
  rcases List.mem_append.mp hc with hc | hc
  · exact (hbase.isSolid.append (isSolid_qualified sep path) c hc).1
  · exact (hword c hc).1

theorem terminalName_word (hbase : IsBase base) (hword : IsWord word) (h : Recognized sep path) :
    terminalName (base ++ qualified sep path ++ word) = word := by
  rw [terminalName_append fun c hc => (hword c hc).2, terminalName_recognized hbase h,
    List.nil_append]

/-- A text with one more name expands to itself when its last name is not a special one. -/
theorem expandPath_ordinary (hbase : IsBase base) (hword : IsWord word)
    (hne : base ++ qualified sep path ++ word ≠ [])
    (hrest : ∀ c, rest.head? = some c → isWhitespace c = true)
    (h : Recognized sep path → word ≠ "self".toList ∧ word ≠ ['_'] ∧ word ≠ ['*']) :
    expandPath (base ++ qualified sep path ++ word ++ rest) =
      [base ++ qualified sep path ++ word] := by
  have hterminal : terminalName (base ++ qualified sep path ++ word) ≠ "self".toList ∧
      terminalName (base ++ qualified sep path ++ word) ≠ ['_'] ∧
      terminalName (base ++ qualified sep path ++ word) ≠ ['*'] := by
    by_cases hrecognized : Recognized sep path
    · rw [terminalName_word hbase hword hrecognized]
      exact h hrecognized
    · -- The last name has a backslash, which no special name has.
      have hmem := List.mem_append_left word (backslash_mem_terminalName base hrecognized)
      rw [← terminalName_append fun c hc => (hword c hc).2] at hmem
      refine ⟨?_, ?_, ?_⟩ <;> intro heq <;> rw [heq] at hmem <;> exact absurd hmem (by decide)
  rw [expandPath, firstWord_word hbase hword hne hrest]
  simp only [if_neg hterminal.1]
  rw [if_pos ⟨hne, hterminal.2⟩]

/-- A wildcard at the end of a recognized path expands to nothing. -/
theorem expandPath_wildcard (hbase : IsBase base) (h : Recognized sep path)
    (hword : word = ['_'] ∨ word = ['*'])
    (hrest : ∀ c, rest.head? = some c → isWhitespace c = true) :
    expandPath (base ++ qualified sep path ++ word ++ rest) = [] := by
  have hisWord : IsWord word := by
    rcases hword with rfl | rfl <;> simp [IsWord, isWhitespace]
  have hne : base ++ qualified sep path ++ word ≠ [] := by
    rcases hword with rfl | rfl <;> simp
  rw [expandPath, firstWord_word hbase hisWord hne hrest]
  simp only [terminalName_word hbase hisWord h]
  rcases hword with rfl | rfl <;> simp

theorem stripSuffix_colons_dot (front : Str) :
    Str.stripSuffix (front ++ ".self".toList) "::self".toList = none := by
  cases hstrip : Str.stripSuffix (front ++ ".self".toList) "::self".toList with
  | none => rfl
  | some parent =>
    have heq := congrArg List.reverse (eq_append_of_stripSuffix hstrip)
    simp at heq

/-- `self` at the end of a recognized path expands to the path before it. -/
theorem expandPath_self (hbase : IsBase base) (h : Recognized sep path)
    (hrest : ∀ c, rest.head? = some c → isWhitespace c = true) :
    expandPath (base ++ qualified sep path ++ "self".toList ++ rest) =
      if path = [] then [] else [base ++ joined sep path] := by
  have hword : IsWord "self".toList := by simp [IsWord, isWhitespace]
  rw [expandPath, firstWord_word hbase hword (by simp) hrest]
  simp only [terminalName_word hbase hword h, if_true]
  by_cases hpath : path = []
  · subst hpath
    rw [qualified_nil, List.append_nil, if_pos rfl]
    rcases hbase with rfl | rfl <;> decide
  · have hparent : (base ++ joined sep path).isEmpty = false := by
      simp [joined_ne_nil sep hpath]
    rw [if_neg hpath, qualified_eq_joined sep hpath]
    cases sep with
    | colons =>
      rw [show base ++ (joined .colons path ++ Separator.colons.text) ++ "self".toList =
        base ++ joined .colons path ++ "::self".toList by simp [Separator.text], stripSuffix_append]
      simp [hparent]
    | dot =>
      rw [show base ++ (joined .dot path ++ Separator.dot.text) ++ "self".toList =
        base ++ joined .dot path ++ ".self".toList by simp [Separator.text], stripSuffix_append,
        stripSuffix_colons_dot]
      simp [hparent]
    | backslash => exact absurd (h rfl) hpath

end

/-! ## Trimmed texts -/

theorem trim_ends {first last : Str} (hfirst : ∀ c ∈ first, isWhitespace c = false)
    (hlast : ∀ c ∈ last, isWhitespace c = false) (hne : first ≠ []) (hne' : last ≠ [])
    (middle : Str) :
    Str.trim (first ++ middle ++ last) = first ++ middle ++ last := by
  obtain ⟨c, first, rfl⟩ := List.exists_cons_of_ne_nil hne
  have hend : (c :: first ++ middle ++ last).getLast? = some (last.getLast hne') := by
    rw [List.getLast?_append_of_ne_nil _ hne', List.getLast?_eq_some_getLast hne']
  exact Str.trim_of_ends rfl hend (hfirst c (by simp)) (hlast _ (List.getLast_mem hne'))

theorem IsSolid.trim {s : Str} (h : IsSolid s) : Str.trim s = s := by
  cases s with
  | nil => rfl
  | cons c rest =>
    have hend := List.getLast?_eq_some_getLast (List.cons_ne_nil c rest)
    exact Str.trim_of_ends rfl hend (h c (by simp)).1 (h _ (List.getLast_mem _)).1

/-- What may follow the last name of a path: nothing, or white space and a text that ends in a
    name. -/
def IsTail (rest : Str) : Prop :=
  rest = [] ∨ (∀ c, rest.head? = some c → isWhitespace c = true) ∧ '{' ∉ rest ∧
    ∃ (front : Str) (name : Ident), rest = front ++ name.text

theorem IsTail.head_blank {rest : Str} (h : IsTail rest) :
    ∀ c, rest.head? = some c → isWhitespace c = true := by
  rcases h with rfl | h
  · simp
  · exact h.1

theorem IsTail.bracket_not_mem {rest : Str} (h : IsTail rest) : '{' ∉ rest := by
  rcases h with rfl | h
  · simp
  · exact h.2.1

theorem IsTail.trim {rest target : Str} (h : IsTail rest) (htarget : IsSolid target)
    (hne : target ≠ []) : Str.trim (target ++ rest) = target ++ rest := by
  rcases h with rfl | ⟨_, _, front, name, rfl⟩
  · rw [List.append_nil]
    exact htarget.trim
  · rw [← List.append_assoc]
    exact trim_ends (fun c hc => (htarget c hc).1) (fun c hc => (name.isSolid c hc).1) hne
      name.ne_nil front

theorem Gap.isTail {gap : Gap} (hne : gap.text ≠ []) (middle : Str) (hmiddle : '{' ∉ middle)
    (name : Ident) : IsTail (gap.text ++ middle ++ name.text) := by
  refine .inr ⟨fun c hc => gap.blank c ?_, ?_, _, name, rfl⟩
  · obtain ⟨first, rest, heq⟩ := List.exists_cons_of_ne_nil hne
    rw [heq] at hc ⊢
    simp_all
  · have hgap := gap.mark_not_mem (c := '{') (by decide)
    simp [hgap, hmiddle, name.isSolid.bracket_not_mem]

theorem AsName.isTail (asName : AsName) : IsTail asName.text := by
  have htail := asName.left.isTail asName.left_ne ("as".toList ++ asName.right.text)
    (by simp [asName.right.mark_not_mem (c := '{') (by decide)]) asName.name
  simpa [AsName.text] using htail

theorem isTail_asName (asName : Option AsName) : IsTail ((asName.map AsName.text).getD []) := by
  cases asName with
  | none => exact .inl rfl
  | some asName => exact asName.isTail

theorem trim_group {front : Str} (hfront : IsSolid front) (inner : Str) :
    Str.trim (front ++ '{' :: inner ++ ['}']) = front ++ '{' :: inner ++ ['}'] := by
  have hopen : ∀ c ∈ front ++ ['{'], isWhitespace c = false := by
    intro c hc
    rcases List.mem_append.mp hc with hc | hc
    · exact (hfront c hc).1
    · rw [List.mem_singleton.mp hc]
      rfl
  simpa using trim_ends hopen (show ∀ c ∈ ['}'], isWhitespace c = false by simp [isWhitespace])
    (by simp) (by simp) inner

/-! ## Expanding one text -/

theorem splitOnce_eq_none {sep : Char} {s : Str} (h : sep ∉ s) : Str.splitOnce sep s = none := by
  induction s with
  | nil => rfl
  | cons c rest ih =>
    simp only [List.mem_cons, not_or] at h
    simp [Str.splitOnce, Ne.symm h.1, ih h.2]

theorem expandGroupedSpec_of_path {value : Str} (htrim : Str.trim value = value)
    (h : '{' ∉ value) : expandGroupedSpec value = expandPath value := by
  have hsplit := splitOnce_eq_none h
  rw [expandGroupedSpec, htrim]
  split
  · rfl
  · rename_i heq
    rw [hsplit] at heq
    cases heq

theorem expandGroupedSpec_of_group {before inner : Str}
    (htrim : Str.trim (before ++ '{' :: inner ++ ['}']) = before ++ '{' :: inner ++ ['}'])
    (hbefore : '{' ∉ before) (hinner : Passes '{' '}' ',' 1 inner) :
    expandGroupedSpec (before ++ '{' :: inner ++ ['}']) =
      (splitOutside '{' '}' ',' 0 [] inner).flatMap fun member =>
        expandGroupedSpec (nestedSpec before member) := by
  have hsplit : Str.splitOnce '{' (before ++ '{' :: inner ++ ['}']) =
      some (before, inner ++ ['}']) := by
    simpa using Str.splitOnce_append (inner ++ ['}']) hbefore
  have hclose := hinner.beforeClosing_eq (by decide) []
  rw [expandGroupedSpec, htrim]
  split
  · rename_i heq
    rw [hsplit] at heq
    cases heq
  · rename_i heq
    rw [hsplit] at heq
    cases heq
    split
    · rename_i heq
      rw [hclose] at heq
      cases heq
    · rename_i heq
      rw [hclose] at heq
      cases heq
      simp [List.flatMap_subtype, List.unattach_attach]

/-- A text without a group below a path. -/
theorem expandGroupedSpec_word {base word rest : Str} {sep : Separator} {path : List Ident}
    (hbase : IsBase base) (hword : IsSolid word) (hne : base ++ qualified sep path ++ word ≠ [])
    (hrest : IsTail rest) :
    expandGroupedSpec (base ++ qualified sep path ++ word ++ rest) =
      expandPath (base ++ qualified sep path ++ word ++ rest) := by
  have hsolid := (hbase.isSolid.append (isSolid_qualified sep path)).append hword
  refine expandGroupedSpec_of_path (hrest.trim hsolid hne) fun hmem => ?_
  rcases List.mem_append.mp hmem with hmem | hmem
  · exact hsolid.bracket_not_mem hmem
  · exact hrest.bracket_not_mem hmem

/-! ## The texts of trees -/

mutual

theorem UseTree.passes (sep : Separator) : (tree : UseTree) →
    Passes '{' '}' ',' 0 (tree.text sep)
  | .leaf path name asName => by
    have htail : Passes '{' '}' ',' 0 ((asName.map AsName.text).getD []) := by
      cases asName with
      | none => exact passes_nil 0
      | some asName => exact asName.passes
    exact ((isSolid_qualified sep path).passes.append name.isSolid.passes).append htail
  | .glob path =>
    (isSolid_qualified sep path).passes.append (IsSolid.passes (by simp [IsSolid, isWhitespace]))
  | .group path members => by
    have hgroup := Passes.group (by decide) (members.passes sep)
    simpa [UseTree.text] using (isSolid_qualified sep path).passes.append hgroup

theorem UseList.passes (sep : Separator) : (members : UseList) →
    Passes '{' '}' ',' 1 (members.text sep)
  | .nil gap => gap.passes.mono (Nat.zero_le 1)
  | .last left tree right =>
    ((left.passes.append (tree.passes sep)).append right.passes).mono (Nat.zero_le 1)
  | .cons left tree right rest =>
    ((left.passes.append (tree.passes sep)).append right.passes).member (by decide) (by decide)
      (rest.passes sep)

end

/-- A member and the white space around it. -/
def memberText (sep : Separator) (left : Gap) (tree : UseTree) (right : Gap) : Str :=
  left.text ++ tree.text sep ++ right.text

/-- The texts between the commas of a list. -/
def UseList.parts (sep : Separator) : UseList → List Str
  | .nil gap => [gap.text]
  | .last left tree right => [memberText sep left tree right]
  | .cons left tree right rest => memberText sep left tree right :: rest.parts sep

theorem memberText_passes (sep : Separator) (left : Gap) (tree : UseTree) (right : Gap) :
    Passes '{' '}' ',' 0 (memberText sep left tree right) :=
  (left.passes.append (tree.passes sep)).append right.passes

theorem splitOutside_members (sep : Separator) : (members : UseList) →
    splitOutside '{' '}' ',' 0 [] (members.text sep) = members.parts sep
  | .nil gap => gap.passes.splitOutside_last
  | .last left tree right => (memberText_passes sep left tree right).splitOutside_last
  | .cons left tree right rest => by
    have hcons := (memberText_passes sep left tree right).splitOutside_cons (by decide) (by decide)
      (rest.text sep)
    rw [splitOutside_members sep rest] at hcons
    exact hcons

theorem UseTree.trim_text (front : Str) (hfront : IsSolid front) (sep : Separator)
    (tree : UseTree) : Str.trim (front ++ tree.text sep) = front ++ tree.text sep := by
  cases tree with
  | leaf path name asName =>
    have hsolid := (hfront.append (isSolid_qualified sep path)).append name.isSolid
    have htrim := (isTail_asName asName).trim hsolid (by simp [name.ne_nil])
    simpa [UseTree.text] using htrim
  | glob path =>
    have hstar : IsSolid ['*'] := by simp [IsSolid, isWhitespace]
    exact (hfront.append ((isSolid_qualified sep path).append hstar)).trim
  | group path members =>
    have htrim := trim_group (hfront.append (isSolid_qualified sep path)) (members.text sep)
    simpa [UseTree.text] using htrim

theorem Gap.trim (gap : Gap) : Str.trim gap.text = [] :=
  List.eq_nil_iff_forall_not_mem.mpr fun c hc => by
    have hnil : Str.trimStart gap.text = [] := List.dropWhile_eq_nil_iff.mpr gap.blank
    simp [Str.trim, hnil] at hc

theorem trim_memberText (sep : Separator) (left : Gap) (tree : UseTree) (right : Gap) :
    Str.trim (memberText sep left tree right) = tree.text sep := by
  refine Str.trim_between _ _ left.blank right.blank (tree.trim_text [] nofun sep) ?_
  cases tree with
  | leaf path name asName => simp [UseTree.text, name.ne_nil]
  | glob path => simp [UseTree.text]
  | group path members => simp [UseTree.text]

def UseList.trees : UseList → List UseTree
  | .nil _ => []
  | .last _ tree _ => [tree]
  | .cons _ tree _ rest => tree :: rest.trees

theorem UseTree.text_isEmpty (sep : Separator) (tree : UseTree) :
    (tree.text sep).isEmpty = false := by
  cases tree with
  | leaf path name asName => simp [UseTree.text, name.ne_nil]
  | glob path => simp [UseTree.text]
  | group path members => simp [UseTree.text]

/-- `split_top_level_specs` finds the trees of a list, whether or not the list ends in a comma. -/
theorem splitTopLevelSpecs_text (sep : Separator) (members : UseList) :
    splitTopLevelSpecs (members.text sep) = members.trees.map (UseTree.text sep) := by
  have hparts : (members.parts sep |>.map Str.trim).filter (fun spec => !spec.isEmpty) =
      members.trees.map (UseTree.text sep) := by
    fun_induction UseList.trees members with
    | case1 gap => simp [UseList.parts, gap.trim]
    | case2 left tree right => simp [UseList.parts, trim_memberText, tree.text_isEmpty]
    | case3 left tree right rest ih =>
      simp [UseList.parts, trim_memberText, tree.text_isEmpty, ih]
  rw [splitTopLevelSpecs, splitOutside_members, hparts]

/-! ## Keywords before a member -/

/-- A text is cut in one way into a name and what follows it. -/
theorem name_unique {word word' rest rest' : Str} (hword : ∀ c ∈ word, isIdentChar c = true)
    (hword' : ∀ c ∈ word', isIdentChar c = true)
    (hrest : ∀ c, rest.head? = some c → isIdentChar c = false)
    (hrest' : ∀ c, rest'.head? = some c → isIdentChar c = false)
    (h : word ++ rest = word' ++ rest') : word = word' := by
  have htake : ∀ {word rest : Str}, (∀ c ∈ word, isIdentChar c = true) →
      (∀ c, rest.head? = some c → isIdentChar c = false) →
      (word ++ rest).takeWhile isIdentChar = word := by
    intro word rest hword hrest
    rw [List.takeWhile_append_of_pos hword]
    cases rest with
    | nil => simp
    | cons c rest => rw [List.takeWhile_cons_of_neg (by simp [hrest c rfl]), List.append_nil]
  rw [← htake hword hrest, h, htake hword' hrest']

/-- A text starts with a keyword and a space only when its first name is the keyword. -/
theorem stripPrefix_keyword {word rest keyword : Str} (hkeyword : ∀ c ∈ keyword, isIdentChar c = true)
    (hword : ∀ c ∈ word, isIdentChar c = true)
    (hrest : ∀ c, rest.head? = some c → isIdentChar c = false)
    (h : word = keyword → rest.head? ≠ some ' ') :
    Str.stripPrefix (word ++ rest) (keyword ++ [' ']) = none := by
  refine if_neg fun hstarts => ?_
  obtain ⟨tail, htail⟩ := List.isPrefixOf_iff_prefix.mp hstarts
  rw [List.append_assoc] at htail
  have hname := name_unique hkeyword hword (by simp [isIdentChar, isWhitespace]) hrest htail
  rw [hname, List.append_cancel_left_eq] at htail
  exact h hname.symm (by rw [← htail]; rfl)

theorem stripImportKeyword_eq_self {word rest : Str} (hword : ∀ c ∈ word, isIdentChar c = true)
    (hrest : ∀ c, rest.head? = some c → isIdentChar c = false)
    (h : word = "function".toList ∨ word = "const".toList → rest.head? ≠ some ' ') :
    stripImportKeyword (word ++ rest) = word ++ rest := by
  have hkeyword : (∀ c ∈ "function".toList, isIdentChar c = true) ∧
      ∀ c ∈ "const".toList, isIdentChar c = true := by simp [isIdentChar, isWhitespace]
  have hfunction := stripPrefix_keyword hkeyword.1 hword hrest fun heq => h (.inl heq)
  have hconst := stripPrefix_keyword hkeyword.2 hword hrest fun heq => h (.inr heq)
  unfold stripImportKeyword
  rw [show "function ".toList = "function".toList ++ [' '] from rfl,
    show "const ".toList = "const".toList ++ [' '] from rfl, hfunction, hconst]
  rfl

theorem isIdentChar_of_blank {c : Char} (h : isWhitespace c = true) : isIdentChar c = false := by
  simp [isIdentChar, h]

/-- After the first name of a longer path comes a separator. -/
theorem qualified_cons (sep : Separator) (first : Ident) (path : List Ident) :
    ∃ (mark : Char) (rest : Str), isIdentChar mark = false ∧ mark ≠ ' ' ∧
      qualified sep (first :: path) = first.text ++ mark :: rest := by
  cases sep with
  | colons => exact ⟨':', _, by decide, by decide, by simp [qualified, Separator.text]; rfl⟩
  | dot => exact ⟨'.', _, by decide, by decide, by simp [qualified, Separator.text]; rfl⟩
  | backslash => exact ⟨'\\', _, by decide, by decide, by simp [qualified, Separator.text]; rfl⟩

/-- A member that keeps its name keeps all of its text. -/
theorem UseTree.KeepsName.stripImportKeyword {tree : UseTree} (h : tree.KeepsName)
    (sep : Separator) : stripImportKeyword (tree.text sep) = tree.text sep := by
  -- A mark after the first name, or at the start, is not the space after a keyword.
  have hmark : ∀ (word : Str) {rest : Str} {mark : Char}, (∀ c ∈ word, isIdentChar c = true) →
      isIdentChar mark = false → mark ≠ ' ' →
      Native.stripImportKeyword (word ++ mark :: rest) = word ++ mark :: rest := by
    intro word rest mark hword hnot hne
    exact stripImportKeyword_eq_self hword (by simpa using hnot) (by simp [hne])
  have hpath : ∀ (first : Ident) (path : List Ident) (rest : Str),
      Native.stripImportKeyword (qualified sep (first :: path) ++ rest) =
        qualified sep (first :: path) ++ rest := by
    intro first path rest
    obtain ⟨mark, tail, hnot, hne, heq⟩ := qualified_cons sep first path
    rw [heq, List.append_assoc, List.cons_append]
    exact hmark first.text first.plain hnot hne
  cases tree with
  | leaf path name asName =>
    cases path with
    | cons first path =>
      simp only [text, List.append_assoc]
      exact hpath first path _
    | nil =>
      cases asName with
      | none =>
        simpa [text] using stripImportKeyword_eq_self name.plain
          (show ∀ c, ([] : Str).head? = some c → isIdentChar c = false by simp) (by simp)
      | some asName =>
        have hkeeps : name.text = "function".toList ∨ name.text = "const".toList →
            asName.text.head? ≠ some ' ' := by
          intro hname
          have hgap := h hname
          obtain ⟨c, gap, heq⟩ := List.exists_cons_of_ne_nil asName.left_ne
          simp only [AsName.text, heq, List.cons_append, List.head?_cons] at hgap ⊢
          exact hgap
        exact stripImportKeyword_eq_self name.plain
          (fun c hc => isIdentChar_of_blank (asName.isTail.head_blank c hc)) hkeeps
  | glob path =>
    cases path with
    | cons first path => exact hpath first path _
    | nil => exact hmark [] nofun (by decide) (by decide)
  | group path members =>
    cases path with
    | cons first path =>
      simp only [text, List.append_assoc]
      exact hpath first path _
    | nil => exact hmark [] nofun (by decide) (by decide)

/-- A member that reads as a keyword before a path loses its name. -/
theorem stripImportKeyword_of_misread {name : Ident} (gap rest : Str)
    (hname : name.text = "function".toList ∨ name.text = "const".toList) :
    stripImportKeyword (name.text ++ ' ' :: gap ++ rest) = gap ++ rest := by
  unfold stripImportKeyword
  rcases hname with hname | hname
  · rw [hname, show "function".toList ++ ' ' :: gap ++ rest = "function ".toList ++ (gap ++ rest) by
      simp, Str.stripPrefix_append]
    rfl
  · rw [hname, show "const".toList ++ ' ' :: gap ++ rest = "const ".toList ++ (gap ++ rest) by
      simp, Str.stripPrefix_append]
    rfl

/-! ## Expanding trees -/

/-- What some leaves below a path expand to. -/
structure Agrees (base : Str) (sep : Separator) (out : List Str) (leaves : List (List Ident))
    (expands : Prop) : Prop where
  length_le : leaves.length ≤ out.length
  eq_iff : out = leaves.map (fun path => base ++ joined sep path) ↔ expands
  starts : ∀ spec ∈ out, base <+: spec

section

variable {base : Str} {sep : Separator}

/-- Members agree together exactly when each of them does: no member expands to fewer paths than
    it has leaves. -/
theorem Agrees.append {out out' : List Str} {leaves leaves' : List (List Ident)}
    {expands expands' : Prop} (h : Agrees base sep out leaves expands)
    (h' : Agrees base sep out' leaves' expands') :
    Agrees base sep (out ++ out') (leaves ++ leaves') (expands ∧ expands') where
  length_le := by
    have hle := h.length_le
    have hle' := h'.length_le
    simp only [List.length_append]
    omega
  eq_iff := by
    rw [← h.eq_iff, ← h'.eq_iff, List.map_append]
    constructor
    · intro heq
      have hle := h.length_le
      have hle' := h'.length_le
      have hlength := congrArg List.length heq
      simp only [List.length_append, List.length_map] at hlength
      exact List.append_inj heq (by simp only [List.length_map]; omega)
    · rintro ⟨rfl, rfl⟩
      rfl
  starts := by
    intro spec hspec
    rcases List.mem_append.mp hspec with hspec | hspec
    · exact h.starts spec hspec
    · exact h'.starts spec hspec

/-- Leaves that come out as they are. -/
theorem Agrees.of_eq {leaves : List (List Ident)} {expands : Prop} (h : expands) {out : List Str}
    (hout : out = leaves.map fun path => base ++ joined sep path) :
    Agrees base sep out leaves expands where
  length_le := by simp [hout]
  eq_iff := ⟨fun _ => h, fun _ => hout⟩
  starts := by
    intro spec hspec
    rw [hout] at hspec
    obtain ⟨path, _, rfl⟩ := List.mem_map.mp hspec
    exact List.prefix_append _ _

/-- A single path where there should be none or another one. -/
theorem Agrees.of_ne {leaves : List (List Ident)} {expands : Prop} (h : ¬ expands) {rest : Str}
    (hlength : leaves.length ≤ 1)
    (hne : ∀ path, leaves = [path] → rest ≠ joined sep path) :
    Agrees base sep [base ++ rest] leaves expands where
  length_le := hlength
  eq_iff := by
    refine iff_of_false (fun heq => ?_) h
    match leaves, hlength with
    | [], _ => simp at heq
    | [path], _ => exact hne path rfl (by simpa using heq)
  starts := by simp

variable (sep) in
/-- A name below a path. -/
theorem agrees_leaf (hbase : IsBase base) (above path : List Ident) (name : Ident)
    (asName : Option AsName) :
    Agrees base sep
      (expandGroupedSpec (base ++ qualified sep above ++ (UseTree.leaf path name asName).text sep))
      ((UseTree.leaf path name asName).leaves above)
      ((UseTree.leaf path name asName).ExpandsBelow sep above) := by
  have htail := isTail_asName asName
  have htext : base ++ qualified sep above ++ (UseTree.leaf path name asName).text sep =
      base ++ qualified sep (above ++ path) ++ name.text ++ (asName.map AsName.text).getD [] := by
    simp [UseTree.text, qualified_append]
  have hne : base ++ qualified sep (above ++ path) ++ name.text ≠ [] := by simp [name.ne_nil]
  rw [htext, expandGroupedSpec_word hbase name.isSolid hne htail]
  simp only [UseTree.leaves, UseTree.ExpandsBelow]
  have hother : (Recognized sep (above ++ path) →
        name.text ≠ "self".toList ∧ name.text ≠ ['_'] ∧ name.text ≠ ['*']) →
      expandPath (base ++ qualified sep (above ++ path) ++ name.text ++
        (asName.map AsName.text).getD []) =
          [base ++ qualified sep (above ++ path) ++ name.text] :=
    expandPath_ordinary hbase name.isWord hne htail.head_blank
  by_cases hrecognized : Recognized sep (above ++ path)
  · refine .of_eq (fun _ => hrecognized) ?_
    split
    · next hwild =>
      exact expandPath_wildcard hbase hrecognized (.inl hwild) htail.head_blank
    · next hwild =>
      split
      · next hself =>
        rw [hself, expandPath_self hbase hrecognized htail.head_blank]
        split <;> simp
      · next hself =>
        rw [hother fun _ => ⟨hself, hwild, fun hstar => by
          simpa [isIdentChar] using name.plain '*' (by simp [hstar])⟩]
        rw [List.map_singleton, joined_append_singleton, List.append_assoc]
  · -- After a backslash every name is taken as it is.
    rw [hother fun h => absurd h hrecognized, List.append_assoc]
    have hpath : above ++ path ≠ [] := fun hnil => hrecognized fun _ => hnil
    split
    · next hwild => exact .of_ne (fun h => hrecognized (h (.inr hwild))) (by simp) (by simp)
    · next hwild =>
      split
      · next hself =>
        refine .of_ne (fun h => hrecognized (h (.inl hself))) (by simp) ?_
        intro parent hparent heq
        obtain rfl : above ++ path = parent := by simpa using hparent
        rw [qualified_eq_joined sep hpath] at heq
        simp [name.ne_nil] at heq
      · next hself =>
        refine .of_eq ?_ (by rw [List.map_singleton, joined_append_singleton])
        rintro (h | h)
        · exact absurd h hself
        · exact absurd h hwild

variable (sep) in
/-- A glob below a path. -/
theorem agrees_glob (hbase : IsBase base) (above path : List Ident) :
    Agrees base sep
      (expandGroupedSpec (base ++ qualified sep above ++ (UseTree.glob path).text sep)) []
      (Recognized sep (above ++ path)) := by
  have hsolid : IsSolid ['*'] := by simp [IsSolid, isWhitespace]
  have hword : IsWord ['*'] := by simp [IsWord, isWhitespace]
  have htext : base ++ qualified sep above ++ (UseTree.glob path).text sep =
      base ++ qualified sep (above ++ path) ++ ['*'] ++ [] := by
    simp [UseTree.text, qualified_append]
  rw [htext, expandGroupedSpec_word hbase hsolid (by simp) (.inl rfl)]
  by_cases hrecognized : Recognized sep (above ++ path)
  · exact .of_eq hrecognized (expandPath_wildcard hbase hrecognized (.inr rfl) (by simp))
  · rw [expandPath_ordinary hbase hword (by simp) (by simp) fun h => absurd h hrecognized,
      List.append_assoc]
    exact .of_ne hrecognized (by simp) (by simp)

/-- A path with nothing after its separator is a path that no leaf has. -/
theorem agrees_nil (hbase : IsBase base) {above : List Ident} (hbelow : above ≠ [] ∨ base ≠ []) :
    Agrees base sep (expandGroupedSpec (base ++ qualified sep above)) [] False := by
  have hne : base ++ qualified sep above ++ [] ≠ [] := by
    rcases hbelow with habove | hbase
    · simp [qualified_eq_joined sep habove, joined_ne_nil sep habove]
    · simp [hbase]
  have hexpand := expandGroupedSpec_word hbase (by simp [IsSolid]) hne (.inl rfl : IsTail [])
  rw [expandPath_ordinary hbase (by simp [IsWord]) hne (by simp) (by simp)] at hexpand
  simp only [List.append_nil] at hexpand
  rw [hexpand]
  exact .of_ne not_false (by simp) (by simp)

variable (sep) in
/-- The text of a group is expanded member by member. -/
theorem expandGroupedSpec_group (hbase : IsBase base) (above path : List Ident)
    (members : UseList) :
    expandGroupedSpec (base ++ qualified sep above ++ (UseTree.group path members).text sep) =
      (members.parts sep).flatMap fun part =>
        expandGroupedSpec (memberBase base (above ++ path) ++ qualified sep (above ++ path) ++
          stripImportKeyword (Str.trim part)) := by
  have hsolid := hbase.isSolid.append (isSolid_qualified sep (above ++ path))
  have htext : base ++ qualified sep above ++ (UseTree.group path members).text sep =
      base ++ qualified sep (above ++ path) ++ '{' :: members.text sep ++ ['}'] := by
    simp [UseTree.text, qualified_append]
  rw [htext, expandGroupedSpec_of_group (trim_group hsolid _) hsolid.bracket_not_mem
    (members.passes sep), splitOutside_members]
  simp only [nestedSpec_eq hbase]

/-- A member that loses its name expands to a path that ends in another one. -/
theorem agrees_misread (hbase : IsBase base) {above : List Ident} (hbelow : above ≠ [] ∨ base ≠ [])
    {name : Ident} {asName : AsName}
    (hname : name.text = "function".toList ∨ name.text = "const".toList)
    (hspace : asName.left.text.head? = some ' ') {expands : Prop} (h : ¬ expands) :
    Agrees base sep
      (expandGroupedSpec (base ++ qualified sep above ++
        stripImportKeyword ((UseTree.leaf [] name (some asName)).text sep)))
      ((UseTree.leaf [] name (some asName)).leaves above) expands := by
  have hleaves : (UseTree.leaf [] name (some asName)).leaves above = [above ++ [name]] := by
    rcases hname with hname | hname <;> simp [UseTree.leaves, hname]
  have hword : ∀ word rest : Str, IsSolid word → IsWord word → IsTail rest →
      base ++ qualified sep above ++ word ≠ [] → word ≠ "self".toList ∧ word ≠ ['_'] ∧ word ≠ ['*'] →
      word ≠ name.text →
      Agrees base sep (expandGroupedSpec (base ++ qualified sep above ++ word ++ rest))
        [above ++ [name]] expands := by
    intro word rest hsolid hisWord htail hne hspecial hdiffers
    rw [expandGroupedSpec_word hbase hsolid hne htail,
      expandPath_ordinary hbase hisWord hne htail.head_blank fun _ => hspecial, List.append_assoc]
    refine .of_ne h (by simp) ?_
    intro path hpath heq
    obtain rfl : above ++ [name] = path := by simpa using hpath
    rw [joined_append_singleton, List.append_cancel_left_eq] at heq
    exact hdiffers heq
  obtain ⟨gap, hgap⟩ : ∃ gap, asName.left.text = ' ' :: gap := by
    cases hleft : asName.left.text with
    | nil => exact absurd hleft asName.left_ne
    | cons c gap =>
      obtain rfl : c = ' ' := by simpa [hleft] using hspace
      exact ⟨gap, rfl⟩
  have htext : (UseTree.leaf [] name (some asName)).text sep =
      name.text ++ ' ' :: gap ++ ("as".toList ++ asName.right.text ++ asName.name.text) := by
    simp [UseTree.text, AsName.text, hgap]
  rw [hleaves, htext, stripImportKeyword_of_misread gap _ hname]
  by_cases hnil : gap = []
  · -- The keyword `as` is taken for the name.
    subst hnil
    have htail := asName.right.isTail asName.right_ne [] (by simp) asName.name
    have hagrees := hword "as".toList _ (by simp [IsSolid, isWhitespace])
      (by simp [IsWord, isWhitespace]) htail (by simp) (by simp)
      (by rcases hname with hname | hname <;> simp [hname])
    simpa using hagrees
  · -- There is no name before the white space that is left.
    have hblank : ∀ c ∈ gap, isWhitespace c = true := fun c hc =>
      asName.left.blank c (by simp [hgap, hc])
    have htail := (Gap.mk gap hblank).isTail hnil ("as".toList ++ asName.right.text)
      (by simp [asName.right.mark_not_mem (c := '{') (by decide)]) asName.name
    have hne : base ++ qualified sep above ++ [] ≠ [] := by
      rcases hbelow with habove | hbase
      · simp [qualified_eq_joined sep habove, joined_ne_nil sep habove]
      · simp [hbase]
    have hagrees := hword [] _ (by simp [IsSolid]) (by simp [IsWord]) htail hne (by simp)
      (Ne.symm name.ne_nil)
    simpa using hagrees

/-- A member of a list, given what its tree expands to. -/
theorem agrees_member (hbase : IsBase base) {above : List Ident} (hbelow : above ≠ [] ∨ base ≠ [])
    (left right : Gap) {tree : UseTree}
    (h : Agrees base sep (expandGroupedSpec (base ++ qualified sep above ++ tree.text sep))
      (tree.leaves above) (tree.ExpandsBelow sep above)) :
    Agrees base sep
      (expandGroupedSpec (base ++ qualified sep above ++
        stripImportKeyword (Str.trim (memberText sep left tree right))))
      (tree.leaves above) (tree.KeepsName ∧ tree.ExpandsBelow sep above) := by
  rw [trim_memberText]
  by_cases hkeeps : tree.KeepsName
  · rw [hkeeps.stripImportKeyword]
    simpa [hkeeps] using h
  · match tree, hkeeps with
    | .leaf [] name (some asName), hkeeps =>
      simp only [UseTree.KeepsName, Classical.not_imp, ne_eq, not_not] at hkeeps
      exact agrees_misread hbase hbelow hkeeps.1 hkeeps.2
        fun hand => hand.1 hkeeps.1 hkeeps.2
    | .leaf [] _ none, hkeeps => exact absurd trivial hkeeps
    | .leaf (_ :: _) _ _, hkeeps => exact absurd trivial hkeeps
    | .glob _, hkeeps => exact absurd trivial hkeeps
    | .group _ _, hkeeps => exact absurd trivial hkeeps

end

mutual

/-- What the text of a tree below a path expands to. -/
theorem UseTree.agrees (sep : Separator) {base : Str} (hbase : IsBase base) {above : List Ident}
    (hbelow : above ≠ [] ∨ base ≠ []) : (tree : UseTree) →
    Agrees base sep (expandGroupedSpec (base ++ qualified sep above ++ tree.text sep))
      (tree.leaves above) (tree.ExpandsBelow sep above)
  | .leaf path name asName => agrees_leaf sep hbase above path name asName
  | .glob path => agrees_glob sep hbase above path
  | .group path members => by
    have hmemberBase : memberBase base (above ++ path) = base := by
      unfold memberBase
      split
      · next hnil =>
        have habove := (List.append_eq_nil_iff.mp hnil).1
        have hne := hbelow.resolve_left fun h => h habove
        exact (hbase.resolve_left hne).symm
      · rfl
    have hbelow' : above ++ path ≠ [] ∨ base ≠ [] :=
      hbelow.imp_left fun h => List.append_ne_nil_of_left_ne_nil h path
    rw [expandGroupedSpec_group sep hbase, hmemberBase]
    exact members.agrees sep hbase hbelow'

theorem UseList.agrees (sep : Separator) {base : Str} (hbase : IsBase base) {above : List Ident}
    (hbelow : above ≠ [] ∨ base ≠ []) : (members : UseList) →
    Agrees base sep
      ((members.parts sep).flatMap fun part =>
        expandGroupedSpec (base ++ qualified sep above ++ stripImportKeyword (Str.trim part)))
      (members.leaves above) (members.ExpandsBelow sep above)
  | .nil gap => by
    have hnil : Agrees base sep (expandGroupedSpec (base ++ qualified sep above)) [] False :=
      agrees_nil hbase hbelow
    simpa [UseList.parts, UseList.leaves, UseList.ExpandsBelow, gap.trim, stripImportKeyword,
      Str.stripPrefix, Str.startsWith] using hnil
  | .last left tree right => by
    have hmember := agrees_member hbase hbelow left right (tree.agrees sep hbase hbelow)
    simpa [UseList.parts, UseList.leaves, UseList.ExpandsBelow] using hmember
  | .cons left tree right rest => by
    have hmember := agrees_member hbase hbelow left right (tree.agrees sep hbase hbelow)
    have hrest := rest.agrees sep hbase hbelow
    exact hmember.append hrest

end

/-! ## Whole imports -/

mutual

theorem UseTree.ne_nil_of_mem_leaves {above path : List Ident} : (tree : UseTree) →
    path ∈ tree.leaves above → path ≠ []
  | .leaf before name asName, h => by
    simp only [UseTree.leaves] at h
    split at h
    · simp at h
    · split at h
      · split at h
        · simp at h
        · next hne =>
          rw [List.mem_singleton.mp h]
          exact hne
      · simp [List.mem_singleton.mp h]
  | .glob _, h => by simp [UseTree.leaves] at h
  | .group _ members, h => members.ne_nil_of_mem_leaves h

theorem UseList.ne_nil_of_mem_leaves {above path : List Ident} : (members : UseList) →
    path ∈ members.leaves above → path ≠ []
  | .nil _, h => by simp [UseList.leaves] at h
  | .last _ tree _, h => tree.ne_nil_of_mem_leaves h
  | .cons _ tree _ rest, h =>
    (List.mem_append.mp h).elim tree.ne_nil_of_mem_leaves rest.ne_nil_of_mem_leaves

end

theorem joined_cons (sep : Separator) (first : Ident) (rest : List Ident) :
    ∃ tail, joined sep (first :: rest) = first.text ++ tail := by
  cases rest with
  | nil => exact ⟨[], by simp⟩
  | cons second rest => exact ⟨_, by rw [joined_cons_cons, List.append_assoc]⟩

/-- A path starts with a name. -/
theorem not_colons_prefix_joined (sep : Separator) {path : List Ident} (h : path ≠ []) :
    ¬ "::".toList <+: joined sep path := by
  intro hcolons
  obtain ⟨first, rest, rfl⟩ := List.exists_cons_of_ne_nil h
  obtain ⟨tail, htail⟩ := joined_cons sep first rest
  obtain ⟨c, name, hname⟩ := List.exists_cons_of_ne_nil first.ne_nil
  rw [htail, hname] at hcolons
  have hc : ':' = c := (List.cons_prefix_cons.mp hcolons).1
  have hplain := first.plain c (by simp [hname])
  rw [← hc] at hplain
  exact absurd hplain (by decide)

theorem UseTree.expandGroupedSpec_iff (sep : Separator) (tree : UseTree) :
    expandGroupedSpec (tree.text sep) = (tree.leaves []).map (joined sep) ↔ tree.Expands sep := by
  cases tree with
  | leaf path name asName =>
    have hleaf := agrees_leaf sep (.inl rfl) [] path name asName
    exact hleaf.eq_iff
  | glob path =>
    have hglob := agrees_glob sep (.inl rfl) [] path
    exact hglob.eq_iff
  | group path members =>
    have hgroup := expandGroupedSpec_group sep (.inl rfl : IsBase []) [] path members
    simp only [qualified_nil, List.nil_append, List.append_nil] at hgroup
    rw [hgroup]
    cases path with
    | cons first path =>
      have hbelow : first :: path ≠ [] ∨ ([] : Str) ≠ [] := .inl (by simp)
      exact (members.agrees sep (.inl rfl) hbelow).eq_iff
    | nil =>
      -- Without a path before it the group is expanded below `::`, which no leaf starts with.
      have hbelow : ([] : List Ident) ≠ [] ∨ "::".toList ≠ [] := .inr (by simp)
      have hagrees := members.agrees sep (.inr rfl) hbelow
      simp only [memberBase, if_true, UseTree.leaves, UseTree.Expands, List.append_nil]
      cases hleaves : members.leaves [] with
      | nil =>
        have hiff := hagrees.eq_iff
        rw [hleaves, List.map_nil] at hiff
        simpa using hiff
      | cons path leaves =>
        have hne := members.ne_nil_of_mem_leaves (show path ∈ members.leaves [] by simp [hleaves])
        refine iff_of_false (fun heq => not_colons_prefix_joined sep hne ?_) (by simp)
        exact hagrees.starts _ (by rw [heq]; simp)

/-- A path in Rust starts at the module or the one that contains it when its text does. -/
theorem startsWith_joined {keyword : Str} (hkeyword : ∀ c ∈ keyword, isIdentChar c = true)
    (first : Ident) (rest : List Ident) :
    Str.startsWith (joined .colons (first :: rest)) (keyword ++ "::".toList) =
      (!rest.isEmpty && decide (first.text = keyword)) := by
  have hcolons : ∀ tail : Str, ∀ c, ("::".toList ++ tail).head? = some c → isIdentChar c = false := by
    simp [isIdentChar]
  cases rest with
  | nil =>
    simp only [joined_singleton, List.isEmpty_nil, Bool.not_true, Bool.false_and]
    refine Bool.eq_false_iff.mpr fun hstarts => ?_
    obtain ⟨tail, htail⟩ := List.isPrefixOf_iff_prefix.mp hstarts
    have hmem : ':' ∈ first.text := by simp [← htail]
    exact absurd (first.plain ':' hmem) (by decide)
  | cons second rest =>
    rw [joined_cons_cons, List.append_assoc]
    simp only [List.isEmpty_cons, Bool.not_false, Bool.true_and]
    rw [Bool.eq_iff_iff, decide_eq_true_iff]
    constructor
    · intro hstarts
      obtain ⟨tail, htail⟩ := List.isPrefixOf_iff_prefix.mp hstarts
      rw [List.append_assoc] at htail
      exact (name_unique hkeyword first.plain (hcolons _) (hcolons _) htail).symm
    · rintro rfl
      rw [← List.append_assoc]
      exact Str.startsWith_append _ _

theorem startsWith_iff_isModuleRelative {path : List Ident} (h : path ≠ []) :
    (!Str.startsWith (joined .colons path) "self::".toList &&
      !Str.startsWith (joined .colons path) "super::".toList) = !isModuleRelative path := by
  have hkeyword : (∀ c ∈ "self".toList, isIdentChar c = true) ∧
      ∀ c ∈ "super".toList, isIdentChar c = true := by simp [isIdentChar, isWhitespace]
  obtain ⟨first, rest, rfl⟩ := List.exists_cons_of_ne_nil h
  have hself := startsWith_joined hkeyword.1 first rest
  have hsuper := startsWith_joined hkeyword.2 first rest
  rw [show "self::".toList = "self".toList ++ "::".toList from rfl,
    show "super::".toList = "super".toList ++ "::".toList from rfl, hself, hsuper]
  cases rest <;> simp [isModuleRelative]

/-- `expand_grouped_spec` returns the paths of the leaves of a `use` tree, and `rust_use_specs`
    those of an indented declaration that do not start at a module, exactly for the trees that
    expand. -/
theorem expandGroupedSpec_exact (sep : Separator) (tree : UseTree) :
    (expandGroupedSpec (tree.text sep) = (tree.leaves []).map (joined sep) ∧
      (sep = .colons → ∀ indented,
        rustUseSpecs (tree.text sep) indented =
          ((tree.leaves []).filter fun path => !(indented && isModuleRelative path)).map
            (joined sep))) ↔
      tree.Expands sep := by
  rw [← tree.expandGroupedSpec_iff sep]
  refine ⟨fun h => h.1, fun h => ⟨h, ?_⟩⟩
  rintro rfl indented
  rw [rustUseSpecs, h]
  cases indented with
  | false => simp
  | true =>
    simp only [if_true, Bool.true_and, List.filter_map]
    congr 1
    apply List.filter_congr
    intro path hpath
    exact startsWith_iff_isModuleRelative (tree.ne_nil_of_mem_leaves hpath)

/-! ## A list that ends in a comma -/

def sampleIdent (c : Char) (h : isIdentChar c = true) : Ident :=
  ⟨[c], by simp, by simpa using h⟩

/-- `a::{b, c,}`. -/
def trailingCommaTree : UseTree :=
  .group [sampleIdent 'a' (by decide)]
    (.cons ⟨[], by simp⟩ (.leaf [] (sampleIdent 'b' (by decide)) none) ⟨[], by simp⟩
      (.cons ⟨[' '], by simp [isWhitespace]⟩ (.leaf [] (sampleIdent 'c' (by decide)) none)
        ⟨[], by simp⟩ (.nil ⟨[], by simp⟩)))

/-- The comma after the last member yields a third path. -/
theorem trailing_comma_invents_leaf :
    trailingCommaTree.text .colons = "a::{b, c,}".toList ∧
      (trailingCommaTree.leaves []).map (joined .colons) = ["a::b".toList, "a::c".toList] ∧
      expandGroupedSpec (trailingCommaTree.text .colons) =
        ["a::b".toList, "a::c".toList, "a::".toList] := by
  refine ⟨by decide, by decide, by decide +kernel⟩

end Ivygrep.Native
