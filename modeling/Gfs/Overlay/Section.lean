import Gfs.Overlay.Patch
import Gfs.Overlay.Status

/-! The sections of a patch (`gfs-overlay/src/diff.rs`, `git_patch_section`), and how Git reads
their headers.
-/

namespace Gfs.Overlay.Diff

open Gfs.Types

-- Numbers in octal

/-- A number in octal, with zeros in front up to a width. -/
def octal (width n : Nat) : Bytes :=
  let digits := (Nat.toDigits 8 n).map (fun digit => digit.toNat.toUInt8)
  List.replicate (width - digits.length) 48 ++ digits

/-- The number that octal digits stand for. -/
def readOctal (digits : Bytes) : Option Nat :=
  if digits ≠ [] ∧ digits.all (fun b => 48 ≤ b && b ≤ 55) then
    some (Nat.ofDigitChars 8 (digits.map (fun b => Char.ofNat b.toNat)) 0)
  else none

theorem isOctal_of_mem_toDigits {n : Nat} {digit : Char} (member : digit ∈ Nat.toDigits 8 n)
    : digit.isDigit = true ∧ digit.toNat ≤ 55 := by
  have isDigit := Nat.isDigit_of_mem_toDigits (by decide) (by decide) member
  refine ⟨isDigit, ?_⟩
  induction n using Nat.strongRecOn with
  | ind n ih =>
      rw [Nat.toDigits_eq_if (by decide)] at member
      split at member
      · rename_i small
        rw [List.mem_singleton] at member
        rw [member]
        interval_cases n <;> decide
      · rename_i large
        cases List.mem_append.mp member with
        | inl front => exact ih (n / 8) (Nat.div_lt_self (by omega) (by decide)) front
        | inr last =>
            have small := Nat.mod_lt n (show 8 > 0 by decide)
            rw [List.mem_singleton] at last
            rw [last]
            generalize n % 8 = rest at small
            interval_cases rest <;> decide

theorem mem_octal {width n : Nat} {b : UInt8} (member : b ∈ octal width n)
    : 48 ≤ b ∧ b ≤ 55 := by
  cases List.mem_append.mp member with
  | inl zero =>
      rw [List.eq_of_mem_replicate zero]
      decide
  | inr digit =>
      obtain ⟨char, inside, rfl⟩ := List.mem_map.mp digit
      obtain ⟨isDigit_, small⟩ := isOctal_of_mem_toDigits inside
      obtain ⟨digit, value⟩ := isDigit_of_char isDigit_
      simp only [isDigit, Bool.and_eq_true, decide_eq_true_eq] at digit
      refine ⟨digit.1, ?_⟩
      rw [UInt8.le_iff_toNat_le, value]
      exact small

theorem readOctal_octal (width n : Nat) : readOctal (octal width n) = some n := by
  have digits : (octal width n).all (fun b => 48 ≤ b && b ≤ 55) = true := by
    rw [List.all_eq_true]
    intro b member
    simpa using mem_octal member
  have some_ : octal width n ≠ [] := by
    simp [octal, Nat.toDigits_ne_nil]
  have back
      : (Nat.toDigits 8 n).map ((fun b => Char.ofNat b.toNat) ∘ fun digit => digit.toNat.toUInt8)
        = Nat.toDigits 8 n := by
    refine (List.map_congr_left ?_).trans (List.map_id _)
    intro digit member
    have value := (isDigit_of_char (isOctal_of_mem_toDigits member).1).2
    rw [Function.comp_apply, value, Char.ofNat_toNat, id]
  rw [readOctal, if_pos ⟨some_, digits⟩]
  simp only [octal, List.map_append, List.map_replicate, List.map_map, back]
  rw [Nat.ofDigitChars_append, show Char.ofNat (48 : UInt8).toNat = '0' by decide,
    Nat.ofDigitChars_replicate_zero, Nat.mul_zero,
    Nat.ofDigitChars_toDigits (by decide) (by decide)]

-- The writer

/-- The bytes on both sides of one change. -/
structure Sides where
  old : Bytes
  new : Bytes
  deriving DecidableEq, Repr

/-- Whether Git quotes a byte of a path. -/
def isQuoted (b : UInt8) : Bool :=
  b < 0x20 || 0x7f ≤ b || b = 32 || b = 34 || b = 92

/-- A byte of a path between quotes. -/
def escapeByte (b : UInt8) : Bytes :=
  if b = 34 then [92, 34]
  else if b = 92 then [92, 92]
  else if b = 10 then [92, 110]
  else if b = 9 then [92, 116]
  else if 0x20 ≤ b && b < 0x7f then [b]
  else 92 :: octal 3 b.toNat

/-- A path in a header, quoted where it needs to be. -/
def quoted (lead path : Bytes) : Bytes :=
  if path.any isQuoted then 34 :: lead ++ path.flatMap escapeByte ++ [34] else lead ++ path

/-- A mode, of a regular file where there is none. -/
def modeOf (value : Option Nat) : Nat :=
  value.getD Mode.regular

/-- A line of a mode. -/
def modeLine (lead : String) (value : Option Nat) : Bytes :=
  text lead ++ octal 6 (modeOf value) ++ [newline]

/-- The lines that tell what kind of change it is. -/
def kindLines (change : StatusChange) : Bytes :=
  match change.kind with
  | .added => modeLine "new file mode " change.newMode
  | .deleted => modeLine "deleted file mode " change.oldMode
  | .renamed =>
      text "similarity index 100%" ++ [newline]
        ++ (text "rename from " ++ change.origin.getD change.path ++ [newline])
        ++ (text "rename to " ++ change.path ++ [newline])
  | .modeChanged | .modified | .typeChanged =>
      if change.oldMode ≠ change.newMode then
        modeLine "old mode " change.oldMode ++ modeLine "new mode " change.newMode
      else []

/-- Render one change as a `diff --git` section. -/
def gitPatchSection (change : StatusChange) (sides : Sides) : Bytes :=
  let a := quoted (text "a/") (change.origin.getD change.path)
  let b := quoted (text "b/") change.path
  let header := text "diff --git " ++ a ++ [32] ++ b ++ [newline] ++ kindLines change
  if sides.old = sides.new then header
  else if isBinary sides.old || isBinary sides.new then
    header ++ (text "Binary files " ++ a ++ text " and " ++ b ++ text " differ" ++ [newline])
  else
    header
      ++ (text "--- " ++ (if change.kind = .added then text "/dev/null" else a) ++ [newline])
      ++ (text "+++ " ++ (if change.kind = .deleted then text "/dev/null" else b) ++ [newline])
      ++ unified sides.old sides.new 3

-- How Git reads it

/-- The byte that a letter behind a backslash stands for. -/
def unescape (letter : UInt8) : Option UInt8 :=
  if letter = 97 then some 7
  else if letter = 98 then some 8
  else if letter = 102 then some 12
  else if letter = 110 then some 10
  else if letter = 114 then some 13
  else if letter = 116 then some 9
  else if letter = 118 then some 11
  else if letter = 34 || letter = 92 then some letter
  else none

/-- The byte of three octal digits, if they stand for one. -/
def octalByte (first second third : UInt8) : Option UInt8 :=
  if 48 ≤ first && first ≤ 51 && 48 ≤ second && second ≤ 55 && 48 ≤ third && third ≤ 55 then
    some ((first - 48) * 64 + (second - 48) * 8 + (third - 48))
  else none

/-- Git's C-unquoting, behind the opening quote: the name, and what follows the closing one. -/
def unquote : Bytes → Option (Bytes × Bytes)
  | [] => none
  | b :: rest =>
      if b = 34 then some ([], rest)
      else if b = 92 then
        match rest with
        | [] => none
        | letter :: rest =>
            match unescape letter with
            | some b => (unquote rest).map (fun read => (b :: read.1, read.2))
            | none =>
                match rest with
                | second :: third :: rest =>
                    (octalByte letter second third).bind (fun b =>
                      (unquote rest).map (fun read => (b :: read.1, read.2)))
                | _ => none
      else (unquote rest).map (fun read => (b :: read.1, read.2))

/-- A name at the head of a line: quoted, or up to the first space. -/
def readName (line : Bytes) : Option (Bytes × Bytes) :=
  if line.head? = some 34 then unquote line.tail
  else some (line.takeWhile (· ≠ 32), line.dropWhile (· ≠ 32))

/-- A path that fills a line: quoted, or to the end of the line. -/
def readPath (line : Bytes) : Option Bytes :=
  if line.head? = some 34 then
    (unquote line.tail).bind (fun read => if read.2 = [] then some read.1 else none)
  else some line

/-- What an extended header line says. -/
inductive Extended where
  | oldMode (mode : Nat)
  | newMode (mode : Nat)
  | newFile (mode : Nat)
  | deletedFile (mode : Nat)
  | similarity
  | renameFrom (path : Bytes)
  | renameTo (path : Bytes)
  deriving DecidableEq, Repr

/-- The extended header lines, and how their values are read. -/
def extendedHeaders : List (Bytes × (Bytes → Option Extended)) :=
  [(text "old mode ", fun value => (readOctal value).map .oldMode),
    (text "new mode ", fun value => (readOctal value).map .newMode),
    (text "new file mode ", fun value => (readOctal value).map .newFile),
    (text "deleted file mode ", fun value => (readOctal value).map .deletedFile),
    (text "similarity index ", fun _ => some .similarity),
    (text "rename from ", fun value => (readPath value).map .renameFrom),
    (text "rename to ", fun value => (readPath value).map .renameTo)]

def readExtended (line : Bytes) : Option Extended :=
  extendedHeaders.findSome? (fun row => (expect row.1 line).bind row.2)

/-- What Git knows a change as. -/
inductive PatchKind where
  | added
  | deleted
  | renamed
  | changed
  deriving DecidableEq, Repr

/-- What the header of a section carries. -/
structure Header where
  old : Bytes
  new : Bytes
  kind : PatchKind
  oldMode : Option Nat
  newMode : Option Nat
  deriving DecidableEq, Repr

def Header.extend (header : Header) : Extended → Header
  | .oldMode mode => { header with oldMode := some mode }
  | .newMode mode => { header with newMode := some mode }
  | .newFile mode => { header with kind := .added, newMode := some mode }
  | .deletedFile mode => { header with kind := .deleted, oldMode := some mode }
  | .similarity => header
  | .renameFrom path => { header with kind := .renamed, old := path }
  | .renameTo path => { header with kind := .renamed, new := path }

/-- The extended header lines at the head of some lines, and the lines behind them. -/
def Header.extendAll (header : Header) : List Bytes → Header × List Bytes
  | [] => (header, [])
  | line :: rest =>
      match readExtended line with
      | some extended => (header.extend extended).extendAll rest
      | none => (header, line :: rest)

/-- What follows the header. -/
inductive Body where
  | none
  | binary
  /-- The names of the two sides, without one for a side that is not there, and the hunks. -/
  | hunks (old new : Option Bytes) (lines : List Bytes)
  deriving DecidableEq, Repr

/-- A name in front of the hunks. -/
def readSide (lead value : Bytes) : Option (Option Bytes) :=
  if value = text "/dev/null" then some none
  else do
    let (name, rest) ← readName value
    if rest ≠ [] then none else (expect lead name).map some

def readBody : List Bytes → Option Body
  | [[]] => some .none
  | [line, []] =>
      if (expect (text "Binary files ") line).isSome then some .binary else none
  | first :: second :: lines => do
      let old ← (expect (text "--- ") first).bind (readSide (text "a/"))
      let new ← (expect (text "+++ ") second).bind (readSide (text "b/"))
      some (.hunks old new lines)
  | _ => none

/-- The two names behind `diff --git`. -/
def readNames (line : Bytes) : Option (Bytes × Bytes) := do
  let names ← expect (text "diff --git ") line
  let (a, rest) ← readName names
  let (b, rest) ← (expect [32] rest).bind readName
  if rest ≠ [] then none
  else
    let old ← expect (text "a/") a
    let new ← expect (text "b/") b
    some (old, new)

/-- A section as Git reads it. -/
def readSection (bytes : Bytes) : Option (Header × Body) :=
  match splitLines bytes with
  | [] => none
  | line :: lines => do
      let (old, new) ← readNames line
      let (header, lines) := Header.extendAll ⟨old, new, .changed, none, none⟩ lines
      let body ← readBody lines
      some (header, body)

-- Names

theorem octal_byte {n : Nat} (small : n < 256)
    : ∃ first second third,
        octal 3 n = [first, second, third]
        ∧ unescape first = none
        ∧ octalByte first second third = some (UInt8.ofNat n) := by
  have all
      : ∀ n < 256,
          octal 3 n = [.ofNat (48 + n / 64), .ofNat (48 + n / 8 % 8), .ofNat (48 + n % 8)]
          ∧ unescape (.ofNat (48 + n / 64)) = none
          ∧ octalByte (.ofNat (48 + n / 64)) (.ofNat (48 + n / 8 % 8)) (.ofNat (48 + n % 8))
            = some (.ofNat n) := by
    decide +kernel
  exact ⟨_, _, _, all n small⟩

/-- Unquoting takes an escaped byte back. -/
theorem unquote_escapeByte (b : UInt8) {rest name left : Bytes}
    (read : unquote rest = some (name, left))
    : unquote (escapeByte b ++ rest) = some (b :: name, left) := by
  have letter {letter : UInt8} (known : unescape letter = some b)
      : unquote (92 :: letter :: rest) = some (b :: name, left) := by
    rw [unquote.eq_def]
    simp only [known, read, Option.map_some, if_true]
    exact if_neg (by decide)
  rw [escapeByte]
  split
  · rename_i quote
    exact letter (by rw [quote]; decide)
  · rename_i other
    split
    · rename_i backslash
      exact letter (by rw [backslash]; decide)
    · rename_i plain
      split
      · rename_i newline
        exact letter (by rw [newline]; decide)
      · split
        · rename_i tab
          exact letter (by rw [tab]; decide)
        · split
          · change unquote (b :: rest) = _
            rw [unquote.eq_def]
            simp only [other, plain, if_false, read, Option.map_some]
          · obtain ⟨first, second, third, digits, unknown, value⟩ := octal_byte b.toNat_lt
            rw [digits]
            change unquote (92 :: first :: second :: third :: rest) = _
            rw [UInt8.ofNat_toNat] at value
            rw [unquote.eq_def]
            simp only [unknown, value, read, Option.bind_some, Option.map_some, if_true]
            exact if_neg (by decide)

theorem unquote_escaped (name rest : Bytes)
    : unquote (name.flatMap escapeByte ++ 34 :: rest) = some (name, rest) := by
  induction name with
  | nil =>
      rw [List.flatMap_nil, List.nil_append, unquote.eq_def]
      exact if_pos rfl
  | cons b name ih =>
      rw [List.flatMap_cons, List.append_assoc]
      exact unquote_escapeByte b ih

theorem escapeByte_of_plain {b : UInt8} (plain : isQuoted b = false) : escapeByte b = [b] := by
  simp only [isQuoted, Bool.or_eq_false_iff, decide_eq_false_iff_not, UInt8.not_lt,
    UInt8.not_le] at plain
  obtain ⟨⟨⟨⟨low, high⟩, -⟩, quote⟩, backslash⟩ := plain
  have newline : b ≠ 10 := by
    rintro rfl
    exact absurd low (by decide)
  have tab : b ≠ 9 := by
    rintro rfl
    exact absurd low (by decide)
  simp [escapeByte, quote, backslash, newline, tab, low, high]

theorem flatMap_escapeByte {name : Bytes} (plain : name.any isQuoted = false)
    : name.flatMap escapeByte = name := by
  induction name with
  | nil => rfl
  | cons b name ih =>
      rw [List.any_cons, Bool.or_eq_false_iff] at plain
      rw [List.flatMap_cons, escapeByte_of_plain plain.1, ih plain.2]
      rfl

theorem escapeByte_bare (b : UInt8) : newline ∉ escapeByte b := by
  rw [escapeByte]
  split
  · decide
  · split
    · decide
    · split
      · decide
      · split
        · decide
        · split
          · rename_i other _ _
            simpa [newline, eq_comm] using other
          · intro member
            cases List.mem_cons.mp member with
            | inl same => exact absurd same (by decide)
            | inr digit => exact absurd (mem_octal digit).1 (by decide)

variable {lead : Bytes}

theorem quoted_bare (plain : lead.any isQuoted = false) (path : Bytes)
    : newline ∉ quoted lead path := by
  have unquoted {name : Bytes} (plain : name.any isQuoted = false) : newline ∉ name := by
    intro member
    have := List.any_eq_false.mp plain newline member
    exact this (by decide)
  rw [quoted]
  split
  · simp only [List.cons_append, List.mem_cons, List.mem_append, List.mem_flatMap, not_or,
      not_exists, not_and, List.not_mem_nil, not_false_eq_true, and_true]
    exact ⟨by decide, ⟨unquoted plain, fun b _ => escapeByte_bare b⟩, by decide⟩
  · rename_i clean
    rw [List.mem_append, not_or]
    exact ⟨unquoted plain, unquoted (by simpa using clean)⟩

/-- A quoted path reads back, at the end of a line or before a space. -/
theorem readName_quoted (plain : lead.any isQuoted = false) (path : Bytes) {rest : Bytes}
    (stop : rest = [] ∨ ∃ more, rest = 32 :: more)
    : readName (quoted lead path ++ rest) = some (lead ++ path, rest) := by
  rw [quoted]
  split
  · have shown
        : 34 :: lead ++ path.flatMap escapeByte ++ [34] ++ rest
          = 34 :: ((lead ++ path).flatMap escapeByte ++ 34 :: rest) := by
      rw [List.flatMap_append, flatMap_escapeByte plain]
      simp
    rw [shown, readName, if_pos List.head?_cons, List.tail_cons, unquote_escaped]
  · rename_i clean
    have clean : (lead ++ path).any isQuoted = false := by
      rw [List.any_append, plain, Bool.false_or]
      simpa using clean
    have other : (lead ++ path ++ rest).head? ≠ some 34 := by
      intro head
      cases whole : lead ++ path with
      | nil =>
          rw [whole] at head
          obtain rfl | ⟨more, rfl⟩ := stop
          · cases head
          · cases head
      | cons b name =>
          rw [whole] at head clean
          cases head
          cases clean
    have spaces : ∀ b ∈ lead ++ path, decide (b ≠ 32) = true := by
      intro b member
      have := List.any_eq_false.mp clean b member
      rw [decide_eq_true_eq]
      rintro rfl
      exact this (by decide)
    rw [readName, if_neg other, List.takeWhile_append_of_pos spaces,
      List.dropWhile_append_of_pos spaces]
    obtain rfl | ⟨more, rfl⟩ := stop
    · simp
    · simp

theorem readPath_raw {path : Bytes} (raw : path.head? ≠ some 34) : readPath path = some path :=
  if_neg raw

-- The lines of a section

/-- Neither text begins with the other. -/
def Apart (lead other : Bytes) : Prop :=
  lead.isPrefixOf other = false ∧ other.isPrefixOf lead = false

instance (lead other : Bytes) : Decidable (Apart lead other) :=
  inferInstanceAs (Decidable (_ ∧ _))

theorem expect_apart {lead other : Bytes} (apart : Apart lead other) (rest : Bytes)
    : expect lead (other ++ rest) = none := by
  rw [expect, if_neg]
  intro begins
  rw [List.isPrefixOf_iff_prefix] at begins
  have one := List.prefix_or_prefix_of_prefix begins (List.prefix_append other rest)
  rw [← List.isPrefixOf_iff_prefix, ← List.isPrefixOf_iff_prefix, apart.1, apart.2] at one
  cases one with
  | inl found => cases found
  | inr found => cases found

theorem extendedHeaders_apart : (extendedHeaders.map Prod.fst).Pairwise Apart := by
  decide

/-- A line is read by the row whose text it begins with. -/
theorem readExtended_of_mem {row : Bytes × (Bytes → Option Extended)}
    (member : row ∈ extendedHeaders) (value : Bytes)
    : readExtended (row.1 ++ value) = row.2 value := by
  have apart := List.pairwise_map.mp extendedHeaders_apart
  rw [readExtended]
  generalize extendedHeaders = rows at member apart
  induction rows with
  | nil => cases member
  | cons first rows ih =>
      rw [List.pairwise_cons] at apart
      rw [List.findSome?_cons]
      cases List.mem_cons.mp member with
      | inl here =>
          rw [here, expect_append, Option.bind_some]
          cases read : first.2 value with
          | some extended => rfl
          | none =>
              rw [List.findSome?_eq_none_iff]
              intro other later
              have far := apart.1 other later
              rw [expect_apart ⟨far.2, far.1⟩]
              rfl
      | inr later =>
          rw [expect_apart (apart.1 row later)]
          exact ih later apart.2

theorem readExtended_apart {other : Bytes} (apart : ∀ lead ∈ extendedHeaders.map Prod.fst,
      Apart lead other)
    (rest : Bytes)
    : readExtended (other ++ rest) = none := by
  rw [readExtended, List.findSome?_eq_none_iff]
  intro row member
  rw [expect_apart (apart row.1 (List.mem_map_of_mem member))]
  rfl

theorem text_bare {string : String} (bare : newline ∉ text string) {value : Bytes}
    (plain : newline ∉ value)
    : newline ∉ text string ++ value := by
  rw [List.mem_append, not_or]
  exact ⟨bare, plain⟩

theorem octal_bare (width n : Nat) : newline ∉ octal width n := by
  intro member
  exact absurd (mem_octal member).1 (by decide)

theorem splitLines_flatMap {parts : List Bytes} (bare : ∀ line ∈ parts, newline ∉ line)
    (rest : Bytes)
    : splitLines (parts.flatMap (· ++ [newline]) ++ rest) = parts ++ splitLines rest := by
  induction parts with
  | nil => rfl
  | cons line parts ih =>
      have later := ih (fun other member => bare other (List.mem_cons_of_mem _ member))
      rw [List.flatMap_cons, List.append_assoc, List.append_assoc, List.cons_append,
        List.nil_append, splitLines_append (bare line List.mem_cons_self), later]
      rfl

/-- An extended header line. -/
def Extended.line : Extended → Bytes
  | .oldMode mode => text "old mode " ++ octal 6 mode
  | .newMode mode => text "new mode " ++ octal 6 mode
  | .newFile mode => text "new file mode " ++ octal 6 mode
  | .deletedFile mode => text "deleted file mode " ++ octal 6 mode
  | .similarity => text "similarity index " ++ text "100%"
  | .renameFrom path => text "rename from " ++ path
  | .renameTo path => text "rename to " ++ path

/-- A path that fills a line as it stands. -/
def FillsLine (path : Bytes) : Prop :=
  path.head? ≠ some 34 ∧ newline ∉ path

instance (path : Bytes) : Decidable (FillsLine path) :=
  inferInstanceAs (Decidable (_ ∧ _))

/-- The paths of an extended header line fill it as they stand. -/
def Extended.Raw : Extended → Prop
  | .renameFrom path | .renameTo path => FillsLine path
  | _ => True

variable {extended : Extended} {change : StatusChange}

theorem readExtended_line (raw : extended.Raw)
    : readExtended extended.line = some extended := by
  have mode {lead : Bytes} {make : Nat → Extended} (mode : Nat)
      (member : (lead, fun value => (readOctal value).map make) ∈ extendedHeaders)
      : readExtended (lead ++ octal 6 mode) = some (make mode) := by
    refine (readExtended_of_mem member _).trans ?_
    change (readOctal _).map make = _
    rw [readOctal_octal]
    rfl
  have path {lead : Bytes} {make : Bytes → Extended} {path : Bytes} (raw : FillsLine path)
      (member : (lead, fun value => (readPath value).map make) ∈ extendedHeaders)
      : readExtended (lead ++ path) = some (make path) := by
    refine (readExtended_of_mem member _).trans ?_
    change (readPath _).map make = _
    rw [readPath_raw raw.1]
    rfl
  cases extended with
  | oldMode value => exact mode value (by simp [extendedHeaders])
  | newMode value => exact mode value (by simp [extendedHeaders])
  | newFile value => exact mode value (by simp [extendedHeaders])
  | deletedFile value => exact mode value (by simp [extendedHeaders])
  | similarity => decide
  | renameFrom name => exact path raw (by simp [extendedHeaders])
  | renameTo name => exact path raw (by simp [extendedHeaders])

theorem Extended.line_bare (raw : extended.Raw)
    : newline ∉ extended.line := by
  cases extended with
  | oldMode value => exact text_bare (by decide) (octal_bare 6 value)
  | newMode value => exact text_bare (by decide) (octal_bare 6 value)
  | newFile value => exact text_bare (by decide) (octal_bare 6 value)
  | deletedFile value => exact text_bare (by decide) (octal_bare 6 value)
  | similarity => exact text_bare (by decide) (by decide)
  | renameFrom name => exact text_bare (by decide) raw.2
  | renameTo name => exact text_bare (by decide) raw.2

theorem extendAll_lines {listed : List Extended} (raw : ∀ extended ∈ listed, extended.Raw)
    (header : Header) {stop : Bytes} (stops : readExtended stop = none) (rest : List Bytes)
    : header.extendAll (listed.map Extended.line ++ stop :: rest)
      = (listed.foldl Header.extend header, stop :: rest) := by
  induction listed generalizing header with
  | nil =>
      rw [List.map_nil, List.nil_append, Header.extendAll, stops]
      rfl
  | cons extended listed ih =>
      rw [List.map_cons, List.cons_append, Header.extendAll,
        readExtended_line (raw extended List.mem_cons_self)]
      exact ih (fun other member => raw other (List.mem_cons_of_mem _ member)) _

-- What a section carries

/-- Where the change begins. -/
def oldPath (change : StatusChange) : BytePath :=
  change.origin.getD change.path

/-- What the extended header lines of a change say. -/
def extendedOf (change : StatusChange) : List Extended :=
  match change.kind with
  | .added => [.newFile (modeOf change.newMode)]
  | .deleted => [.deletedFile (modeOf change.oldMode)]
  | .renamed => [.similarity, .renameFrom (oldPath change), .renameTo change.path]
  | .modeChanged | .modified | .typeChanged =>
      if change.oldMode ≠ change.newMode then
        [.oldMode (modeOf change.oldMode), .newMode (modeOf change.newMode)]
      else []

/-- The facts of a change that its header has lines for. -/
def carried (change : StatusChange) : Header :=
  let moved := change.oldMode ≠ change.newMode
  {
    old := oldPath change
    new := change.path
    kind :=
      match change.kind with
      | .added => .added
      | .deleted => .deleted
      | .renamed => .renamed
      | .modeChanged | .modified | .typeChanged => .changed
    oldMode :=
      match change.kind with
      | .added | .renamed => none
      | .deleted => some (modeOf change.oldMode)
      | .modeChanged | .modified | .typeChanged =>
          if moved then some (modeOf change.oldMode) else none
    newMode :=
      match change.kind with
      | .deleted | .renamed => none
      | .added => some (modeOf change.newMode)
      | .modeChanged | .modified | .typeChanged =>
          if moved then some (modeOf change.newMode) else none
  }

/-- What follows the header of a change. -/
def carriedBody (change : StatusChange) (sides : Sides) : Body :=
  if sides.old = sides.new then .none
  else if isBinary sides.old || isBinary sides.new then .binary
  else
    .hunks (if change.kind = .added then none else some (oldPath change))
      (if change.kind = .deleted then none else some change.path)
      (splitLines (unified sides.old sides.new 3))

/-- The paths that a rename prints as they stand fill their lines. -/
def Printable (change : StatusChange) : Prop :=
  change.kind = .renamed → FillsLine (oldPath change) ∧ FillsLine change.path

theorem foldl_extend (change : StatusChange)
    : (extendedOf change).foldl Header.extend ⟨oldPath change, change.path, .changed, none, none⟩
      = carried change := by
  obtain ⟨path, kind, origin, oldMode, newMode, oldOid, newOid, newSize⟩ := change
  by_cases moved : oldMode = newMode
  · cases kind <;> simp [extendedOf, carried, Header.extend, moved]
  · cases kind <;> simp [extendedOf, carried, Header.extend, moved]

theorem kindLines_eq (change : StatusChange)
    : kindLines change = ((extendedOf change).map Extended.line).flatMap (· ++ [newline]) := by
  have similar
      : text "similarity index 100%" = text "similarity index " ++ text "100%" := by
    decide
  obtain ⟨path, kind, origin, oldMode, newMode, oldOid, newOid, newSize⟩ := change
  by_cases moved : oldMode = newMode
  · cases kind <;> simp [kindLines, modeLine, extendedOf, Extended.line, oldPath, moved, similar]
  · cases kind <;> simp [kindLines, modeLine, extendedOf, Extended.line, oldPath, moved, similar]

theorem raw_of_mem (printable : Printable change) (member : extended ∈ extendedOf change)
    : extended.Raw := by
  obtain ⟨path, kind, origin, oldMode, newMode, oldOid, newOid, newSize⟩ := change
  cases kind with
  | added =>
      rw [List.mem_singleton.mp member]
      trivial
  | deleted =>
      rw [List.mem_singleton.mp member]
      trivial
  | renamed =>
      obtain ⟨old, new⟩ := printable rfl
      simp only [extendedOf, List.mem_cons, List.not_mem_nil, or_false] at member
      obtain rfl | rfl | rfl := member
      · trivial
      · exact old
      · exact new
  | modified | typeChanged | modeChanged =>
      by_cases moved : oldMode = newMode
      · simp [extendedOf, moved] at member
      · simp only [extendedOf, ne_eq, moved, not_false_eq_true, if_true, List.mem_cons,
          List.not_mem_nil, or_false] at member
        obtain rfl | rfl := member
        · trivial
        · trivial

/-- The line with the two names. -/
def namesLine (change : StatusChange) : Bytes :=
  text "diff --git " ++ quoted (text "a/") (oldPath change) ++ [32]
    ++ quoted (text "b/") change.path

/-- The part of a section behind its header. -/
def bodyBytes (change : StatusChange) (sides : Sides) : Bytes :=
  let a := quoted (text "a/") (oldPath change)
  let b := quoted (text "b/") change.path
  if sides.old = sides.new then []
  else if isBinary sides.old || isBinary sides.new then
    text "Binary files " ++ a ++ text " and " ++ b ++ text " differ" ++ [newline]
  else
    text "--- " ++ (if change.kind = .added then text "/dev/null" else a) ++ newline
      :: (text "+++ " ++ (if change.kind = .deleted then text "/dev/null" else b) ++ newline
        :: unified sides.old sides.new 3)

theorem gitPatchSection_eq (change : StatusChange) (sides : Sides)
    : gitPatchSection change sides
      = (namesLine change :: (extendedOf change).map Extended.line).flatMap (· ++ [newline])
        ++ bodyBytes change sides := by
  rw [List.flatMap_cons, ← kindLines_eq, gitPatchSection, bodyBytes, namesLine, oldPath]
  split
  · simp
  · split
    · simp
    · simp

theorem aSlash_plain : (text "a/").any isQuoted = false := by
  decide

theorem bSlash_plain : (text "b/").any isQuoted = false := by
  decide

theorem readNames_namesLine (change : StatusChange)
    : readNames (namesLine change) = some (oldPath change, change.path) := by
  have first := readName_quoted aSlash_plain (oldPath change)
    (.inr ⟨quoted (text "b/") change.path, rfl⟩)
  have second := readName_quoted bSlash_plain change.path (.inl rfl)
  have space : expect [32] (32 :: quoted (text "b/") change.path)
      = some (quoted (text "b/") change.path) :=
    expect_append [32] _
  rw [List.append_nil] at second
  rw [namesLine, readNames, List.append_assoc, List.append_assoc]
  simp only [expect_append, Option.bind_eq_bind, Option.bind_some, List.cons_append,
    List.nil_append, first, space, second, ne_eq, not_true, if_false]

theorem namesLine_bare (change : StatusChange) : newline ∉ namesLine change := by
  have a := quoted_bare aSlash_plain (oldPath change)
  have b := quoted_bare bSlash_plain change.path
  have lead : newline ∉ text "diff --git " := by
    decide
  simp only [namesLine, List.mem_append, List.mem_singleton, not_or]
  exact ⟨⟨⟨lead, a⟩, by decide⟩, b⟩

theorem readSide_quoted {lead : Bytes} (plain : lead.any isQuoted = false) {b : UInt8}
    (begins : lead.head? = some b) (other : b ≠ 47) (path : Bytes)
    : readSide lead (quoted lead path) = some (some path) := by
  have named : quoted lead path ≠ text "/dev/null" := by
    have slash : (text "/dev/null").head? = some 47 := by
      decide
    intro same
    rw [← same, quoted] at slash
    split at slash
    · cases slash
    · rw [List.head?_append, begins] at slash
      exact other (Option.some.inj slash)
  have read := readName_quoted plain path (.inl rfl)
  rw [List.append_nil] at read
  rw [readSide, if_neg named]
  simp only [read, Option.bind_eq_bind, Option.bind_some, ne_eq, not_true, if_false,
    expect_append, Option.map_some]

theorem readBody_sides (first rest : Bytes) (lines : List Bytes)
    : readBody (first :: (text "+++ " ++ rest) :: lines)
      = ((expect (text "--- ") first).bind (readSide (text "a/"))).bind (fun old =>
          (readSide (text "b/") rest).bind (fun new => some (.hunks old new lines))) := by
  have read := expect_append (text "+++ ") rest
  have starts : text "+++ " = 43 :: [43, 43, 32] := by decide
  rw [readBody]
  · simp only [Option.bind_eq_bind, read, Option.bind_some]
  · intro empty
    rw [starts] at empty
    cases empty

theorem devNull_bare : newline ∉ text "/dev/null" := by
  decide

/-- The body of a section begins with a line that is no header line, and reads back. -/
theorem readBody_bodyBytes (change : StatusChange) (sides : Sides)
    : ∃ stop rest,
        splitLines (bodyBytes change sides) = stop :: rest
        ∧ readExtended stop = none
        ∧ readBody (stop :: rest) = some (carriedBody change sides) := by
  have a := quoted_bare aSlash_plain (oldPath change)
  have b := quoted_bare bSlash_plain change.path
  rw [bodyBytes, carriedBody]
  split
  · exact ⟨[], [], rfl, by decide, rfl⟩
  · split
    · generalize quoted (text "a/") (oldPath change) = old at a
      generalize quoted (text "b/") change.path = new at b
      refine ⟨text "Binary files " ++ (old ++ text " and " ++ new ++ text " differ"), [[]],
        ?_, ?_, ?_⟩
      · have bare
            : newline ∉ text "Binary files " ++ (old ++ text " and " ++ new ++ text " differ") := by
          apply text_bare (by decide)
          simp only [List.mem_append, not_or]
          exact ⟨⟨⟨a, by decide⟩, b⟩, by decide⟩
        have whole := splitLines_append bare []
        simp only [List.append_assoc] at whole ⊢
        exact whole
      · exact readExtended_apart (by decide) _
      · simp only [readBody, expect_append, Option.isSome_some, if_true]
    · -- Each side is `/dev/null` or a quoted name; both read back and hold no newline.
      have old
          : newline ∉ (if change.kind = .added then text "/dev/null"
              else quoted (text "a/") (oldPath change))
            ∧ readSide (text "a/") (if change.kind = .added then text "/dev/null"
                else quoted (text "a/") (oldPath change))
              = some (if change.kind = .added then none else some (oldPath change)) := by
        split
        · exact ⟨devNull_bare, if_pos rfl⟩
        · exact ⟨a, readSide_quoted aSlash_plain (b := 97) rfl (by decide) _⟩
      have new
          : newline ∉ (if change.kind = .deleted then text "/dev/null"
              else quoted (text "b/") change.path)
            ∧ readSide (text "b/") (if change.kind = .deleted then text "/dev/null"
                else quoted (text "b/") change.path)
              = some (if change.kind = .deleted then none else some change.path) := by
        split
        · exact ⟨devNull_bare, if_pos rfl⟩
        · exact ⟨b, readSide_quoted bSlash_plain (b := 98) rfl (by decide) _⟩
      refine ⟨_, _, splitLines_append (text_bare (by decide) old.1) _,
        readExtended_apart (by decide) _, ?_⟩
      rw [splitLines_append (text_bare (by decide) new.1)]
      rw [readBody_sides, expect_append, Option.bind_some, old.2, new.2]
      rfl

theorem splitLines_gitPatchSection (printable : Printable change) (sides : Sides)
    : splitLines (gitPatchSection change sides)
      = namesLine change :: (extendedOf change).map Extended.line
        ++ splitLines (bodyBytes change sides) := by
  rw [gitPatchSection_eq]
  apply splitLines_flatMap
  intro line member
  cases List.mem_cons.mp member with
  | inl names =>
      rw [names]
      exact namesLine_bare change
  | inr later =>
      obtain ⟨extended, listed, rfl⟩ := List.mem_map.mp later
      exact Extended.line_bare (raw_of_mem printable listed)

theorem readSection_gitPatchSection (printable : Printable change) (sides : Sides)
    : readSection (gitPatchSection change sides)
      = some (carried change, carriedBody change sides) := by
  have raw : ∀ extended ∈ extendedOf change, extended.Raw :=
    fun extended listed => raw_of_mem printable listed
  obtain ⟨stop, rest, split_, stops, body⟩ := readBody_bodyBytes change sides
  rw [readSection, splitLines_gitPatchSection printable, split_]
  simp only [List.cons_append, readNames_namesLine, Option.bind_eq_bind, Option.bind_some,
    extendAll_lines raw _ stops, foldl_extend, body]

/-- A section has the lines of its change and no others, and reads back as the paths, the kind
and the modes that its header carries and as its body; so two changes with one section, or with
one header, carry the same.
Witness: a quoted name has no newline and ends where its quote is closed.
-/
theorem section_read_back {change : StatusChange} (printable : Printable change) (sides : Sides)
    : splitLines (gitPatchSection change sides)
        = namesLine change :: (extendedOf change).map Extended.line
          ++ splitLines (bodyBytes change sides)
      ∧ readSection (gitPatchSection change sides)
        = some (carried change, carriedBody change sides)
      ∧ ∀ (other : StatusChange) (otherSides : Sides),
          Printable other
          → gitPatchSection other otherSides = gitPatchSection change sides
          → carried other = carried change
            ∧ carriedBody other otherSides = carriedBody change sides := by
  have read := readSection_gitPatchSection printable sides
  refine ⟨splitLines_gitPatchSection printable sides, read, ?_⟩
  intro other otherSides otherPrintable same
  rw [← same, readSection_gitPatchSection otherPrintable] at read
  exact Prod.mk.inj (Option.some.inj read)

/-- A file that was written to and one whose executable bit moved have the same header. -/
theorem kind_not_read_back
    : ¬∃ read : Bytes → Option (BytePath × BytePath × ChangeKind × Option Nat × Option Nat),
        ∀ (change : StatusChange) (sides : Sides),
          read (gitPatchSection change sides)
          = some (oldPath change, change.path, change.kind, change.oldMode, change.newMode) := by
  rintro ⟨read, reads⟩
  let change (kind : ChangeKind) : StatusChange :=
    ⟨text "run", kind, none, some 0o100644, some 0o100755, none, none, 0⟩
  have same
      : gitPatchSection (change .modified) ⟨[], []⟩
        = gitPatchSection (change .modeChanged) ⟨[], []⟩ :=
    rfl
  have one := reads (change .modified) ⟨[], []⟩
  rw [same, reads (change .modeChanged) ⟨[], []⟩] at one
  cases one

/-- A rename of `a b` to a name with a quote in it. -/
theorem renamed_section_read_back
    : readSection
        (gitPatchSection ⟨text "c\"d", .renamed, some (text "a b"), none, none, none, none, 0⟩
          ⟨[], []⟩)
      = some (⟨text "a b", text "c\"d", .renamed, none, none⟩, .none) :=
  (@section_read_back
    ⟨text "c\"d", .renamed, some (text "a b"), none, none, none, none, 0⟩
    (fun _ => ⟨by decide, by decide⟩) ⟨[], []⟩).2.1

end Gfs.Overlay.Diff
