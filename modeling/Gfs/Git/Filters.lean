import Gfs.Git.Pages
import Gfs.Git.Patterns

/-! The `filter` attribute as gitattributes(5) assigns it beside `resolve_filter` over the attribute
stack. Macros and quoted patterns are left out.
-/

namespace Gfs.Git

open Gfs.Types
open Gfs.Lib

-- Lines as Git reads them

/-- What a line assigns `filter`. -/
inductive Assignment where
  | set
  | unset
  | unspecified
  | value (value : Bytes)
  deriving DecidableEq, Repr

/-- The forms that assign `filter`. -/
def assignmentOf (attr : Bytes) : Option Assignment :=
  if attr = filterName then some .set
  else if attr = 45 :: filterName then some .unset
  else if attr = 33 :: filterName then some .unspecified
  else if (filterName ++ [61]).isPrefixOf attr then some (.value (attr.drop 7))
  else none

/-- What parts the words of a line. -/
def isBlank (b : UInt8) : Bool :=
  b = 32 || b = 9 || b = 10 || b = 13

/-- The pattern of a line and what the line assigns `filter`: the last of its words that assigns it
counts. A comment and a negative pattern assign nothing. Git also drops a whole line with a NUL,
with an attribute name that is none, or of 2048 bytes and more; that is left out.
-/
def gitRule (line : Bytes) : Option (Bytes × Assignment) :=
  match Pieces.words isBlank line with
  | [] => none
  | pattern :: attrs =>
      if pattern.head? = some 35 ∨ pattern.head? = some 33 then none
      else (attrs.reverse.findSome? assignmentOf).map (fun assigned => (pattern, assigned))

-- Lines and their places

/-- A line of an attribute file, and the path it is asked about as seen from its directory. -/
structure PlacedLine where
  /-- The mode of its file. -/
  mode : Nat
  text : Bytes
  path : Bytes
  deriving DecidableEq, Repr

namespace ObjectDb

variable (db : ObjectDb)

end ObjectDb

open Classical in
/-- What a line assigns the path it is asked about. -/
noncomputable def PlacedLine.assigned (line : PlacedLine) : Option Assignment :=
  (gitRule line.text).bind (fun rule =>
    if Pattern.Matches rule.1 line.path then some rule.2 else none)

/-- What a line resolves the path it is asked about to, in a file that the stack takes. -/
def PlacedLine.resolved (line : PlacedLine) : Option FilterState :=
  if line.mode = Mode.regular then
    (parseRule line.text).bind (fun rule =>
      if rule.pattern.matchesPath
        (if rule.basenameOnly then Pattern.baseName line.path else line.path)
      then some rule.state
      else none)
  else none

section Stack

variable {db : ObjectDb}

end Stack

-- Agreement

/-- A resolved state is what was assigned. -/
def FilterState.Is : FilterState → Assignment → Prop
  | .set, .set => True
  | .unset, .unset => True
  | .unspecified, .unspecified => True
  | .value text, .value bytes => text.utf8 = bytes
  | _, _ => False

/-- What is resolved is what is assigned, or neither is anything. -/
def Agree : Option FilterState → Option Assignment → Prop
  | none, none => True
  | some state, some assigned => state.Is assigned
  | _, _ => False

/-- A line that is the first with a say settles both alike: it resolves and assigns the same, or the
next line that has a say on the other side has the same to say.
-/
def PlacedLine.Settles (line : PlacedLine) (later : List PlacedLine) : Prop :=
  match line.resolved, line.assigned with
  | none, none => True
  | some state, some assigned => state.Is assigned
  | some state, none =>
      ∃ assigned, later.findSome? PlacedLine.assigned = some assigned ∧ state.Is assigned
  | none, some assigned =>
      ∃ state, later.findSome? PlacedLine.resolved = some state ∧ state.Is assigned

/-- The first of some lines that has a say on either side settles both. -/
def Settled (lines : List PlacedLine) : Prop :=
  ∀ earlier line later,
    lines = earlier ++ line :: later →
    (∀ before ∈ earlier, before.resolved = none ∧ before.assigned = none) →
    line.Settles later

/-- A state for what is assigned. A value is decoded. -/
def Assignment.state : Assignment → FilterState
  | .set => .set
  | .unset => .unset
  | .unspecified => .unspecified
  | .value bytes => .value (Text.fromUtf8Lossy bytes)

/-- The last attribute that assigns `filter` counts. -/
theorem foldl_assign (attrs : List Bytes) (state : Option FilterState)
    : attrs.foldl FilterState.assign state
      = ((attrs.reverse.findSome? assignmentOf).map Assignment.state).or state := by
  have one (attr : Bytes) (state : Option FilterState)
      : FilterState.assign state attr = ((assignmentOf attr).map Assignment.state).or state := by
    rw [FilterState.assign, assignmentOf]
    split_ifs with set unset unspecified value
    · rfl
    · rfl
    · rfl
    · rfl
    · rfl
  induction attrs generalizing state with
  | nil => rfl
  | cons attr attrs ih =>
      rw [List.foldl_cons, ih, one, List.reverse_cons, List.findSome?_append,
        List.findSome?_singleton]
      cases attrs.reverse.findSome? assignmentOf <;> rfl

theorem parseRule_eq (line : Bytes)
    : parseRule line
      = match Pieces.words isAsciiWhitespace line with
        | [] => none
        | pattern :: attrs =>
            if pattern.head? = some 35 ∨ pattern.head? = some 33 then none
            else if pattern.getLast? = some slash then none
            else
              (attrs.reverse.findSome? assignmentOf).map (fun assigned =>
                ⟨Glob.fromBytes pattern, !pattern.contains slash, assigned.state⟩) := by
  have same : Pieces.words isAsciiWhitespace (trimAscii line)
      = Pieces.words isAsciiWhitespace line := by
    rw [trimAscii, Pieces.words_rdropWhile, Pieces.words_dropWhile]
  rw [parseRule, ← same]
  cases trimmed : trimAscii line with
  | nil => rfl
  | cons first rest =>
      obtain ⟨behind, attrs, words⟩ :=
        Pieces.words_cons rest (Pieces.head_of_trimmed trimmed)
      rw [words]
      dsimp only
      rw [Pieces.words] at words
      rw [words]
      dsimp only
      simp only [List.head?_cons, Option.some.injEq, foldl_assign, Option.or_none, Option.map_map]
      rfl

/-- A line that is read alike: its file is not executable, no form feed stands in it, its pattern is
of plain bytes, question marks and single asterisks, and a value is text.
-/
structure PlacedLine.Plain (line : PlacedLine) : Prop where
  regular : line.mode = Mode.regular
  text : 12 ∉ line.text
  pattern
    : ∀ pattern assigned, gitRule line.text = some (pattern, assigned)
        → Pattern.Plain pattern
          ∧ ∀ value, assigned = .value value → (Text.fromUtf8Lossy value).utf8 = value

/-- A plain line resolves what it assigns. -/
theorem PlacedLine.Plain.agree {line : PlacedLine} (plain : line.Plain)
    : Agree line.resolved line.assigned := by
  have words : Pieces.words isAsciiWhitespace line.text = Pieces.words isBlank line.text := by
    refine Pieces.words_congr fun byte inside => ?_
    have other : byte ≠ 12 := fun same => plain.text (same ▸ inside)
    simp [isAsciiWhitespace, isBlank, other, Bool.or_comm, Bool.or_left_comm]
  rw [PlacedLine.resolved, if_pos plain.regular, PlacedLine.assigned, parseRule_eq, words]
  have read := plain.pattern
  cases parts : Pieces.words isBlank line.text with
  | nil =>
      rw [gitRule, parts]
      trivial
  | cons pattern attrs =>
      rw [gitRule, parts] at read ⊢
      dsimp only at read ⊢
      by_cases skipped : pattern.head? = some 35 ∨ pattern.head? = some 33
      · rw [if_pos skipped, if_pos skipped]
        trivial
      · simp only [if_neg skipped] at read ⊢
        cases last : attrs.reverse.findSome? assignmentOf with
        | none =>
            split
            · trivial
            · trivial
        | some assigned =>
            obtain ⟨plainPattern, decoded⟩ := read pattern assigned (by rw [last]; rfl)
            have is : assigned.state.Is assigned := by
              cases assigned with
              | set | unset | unspecified => trivial
              | value bytes => exact decoded bytes rfl
            by_cases directories : pattern.getLast? = some slash
            · rw [if_pos directories, Option.map_some, Option.bind_some, Option.bind_none,
                if_neg (fun matches_ => matches_.1 directories)]
              trivial
            · have tried
                  : (if (!pattern.contains slash) = true then Pattern.baseName line.path
                      else line.path)
                    = if slash ∈ pattern then line.path else Pattern.baseName line.path := by
                by_cases slashed : slash ∈ pattern
                · simp [slashed]
                · simp [slashed]
              rw [if_neg directories, Option.map_some, Option.map_some, Option.bind_some,
                Option.bind_some]
              dsimp only
              rw [tried]
              by_cases met : Pattern.Matches pattern line.path
              · rw [if_pos ((plainPattern.matches_iff directories).mpr met), if_pos met]
                exact is
              · rw [if_neg (fun found => met ((plainPattern.matches_iff directories).mp found)),
                  if_neg met]
                trivial

end Gfs.Git
