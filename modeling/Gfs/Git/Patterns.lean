import Gfs.Lib.Pieces
import Gfs.Types.GlobGrammar
import Gfs.Types.Text

/-! The patterns of attribute files as Git documents them: the pattern format of gitignore(5), with
the exceptions of gitattributes(5). A pattern for directories matches no file, and one that matches
a directory does not match what is inside it.
-/

namespace Gfs.Git.Pattern

open Gfs.Types

-- Reading

/-- A part of a pattern. -/
inductive Part where
  | byte (want : UInt8)
  /-- `?` -/
  | anyByte
  /-- An asterisk, or several that mean no more than one. -/
  | star
  | oneOf (negated : Bool) (members : UInt8 → Prop)
  /-- `**/` at the start or behind a slash. -/
  | directories
  /-- `**` at the end and behind a slash. -/
  | everything

/-- A byte between two others. -/
def within (low high byte : UInt8) : Prop :=
  low ≤ byte ∧ byte ≤ high

def isUpper : UInt8 → Prop := within 65 90

def isLower : UInt8 → Prop := within 97 122

def isDigit : UInt8 → Prop := within 48 57

def isAlnum (byte : UInt8) : Prop :=
  isUpper byte ∨ isLower byte ∨ isDigit byte

/-- The classes that have a name. -/
def classes : List (String × (UInt8 → Prop)) :=
  [("upper", isUpper),
    ("lower", isLower),
    ("alpha", fun byte => isUpper byte ∨ isLower byte),
    ("digit", isDigit),
    ("xdigit", fun byte => isDigit byte ∨ within 65 70 byte ∨ within 97 102 byte),
    ("alnum", isAlnum),
    ("blank", fun byte => byte = 32 ∨ byte = 9),
    ("space", fun byte => byte = 32 ∨ within 9 13 byte),
    ("cntrl", fun byte => byte < 32 ∨ byte = 127),
    ("graph", within 33 126),
    ("print", within 32 126),
    ("punct", fun byte => within 33 126 byte ∧ ¬isAlnum byte)]

/-- One member of a class that is written by itself, and what is behind it. A bracket that would
close the class at once is one, and a bracket that opens none of the names.
-/
inductive Member : Bool → Bytes → UInt8 → Bytes → Prop where
  | plain {first : Bool} {byte : UInt8} {rest : Bytes} (other : byte ≠ 92)
      (opens : byte = 93 → first = true)
      (unnamed
        : ∀ name more, rest = 58 :: (name ++ 58 :: 93 :: more) → 93 ∉ name → byte ≠ 91)
      : Member first (byte :: rest) byte rest
  | escaped {first : Bool} (byte : UInt8) {rest : Bytes}
      : Member first (92 :: byte :: rest) byte rest

/-- The members of a class and its closing bracket. A hyphen between two members makes a range of
them.
-/
inductive Members : Bool → Bytes → (UInt8 → Prop) → Prop where
  | close : Members false [93] (fun _ => False)
  | named {first : Bool} {name : String} {those : UInt8 → Prop} (listed : (name, those) ∈ classes)
      {text : Bytes} {members : UInt8 → Prop} (more : Members false text members)
      : Members first (91 :: 58 :: (Text.utf8 name.toList ++ 58 :: 93 :: text))
          (fun byte => those byte ∨ members byte)
  | range {first : Bool} {text high rest : Bytes} {least greatest : UInt8}
      {members : UInt8 → Prop} (begins : Member first text least (45 :: high))
      (ends : Member false high greatest rest) (more : Members false rest members)
      : Members first text (fun byte => within least greatest byte ∨ members byte)
  | member {first : Bool} {text rest : Bytes} {byte : UInt8} {members : UInt8 → Prop}
      (one : Member first text byte rest)
      (alone : ∀ high more, rest = 45 :: high :: more → high = 93)
      (more : Members false rest members)
      : Members first text (fun other => other = byte ∨ members other)

/-- A class behind its opening bracket, negated where a `!` or a `^` comes first. -/
inductive IsClass : Bytes → Part → Prop where
  | negated {mark : UInt8} {text : Bytes} {members : UInt8 → Prop}
      (marks : mark = 33 ∨ mark = 94) (body : Members true text members)
      : IsClass (mark :: text) (.oneOf true members)
  | plain {text : Bytes} {members : UInt8 → Prop}
      (other : ∀ mark ∈ text.head?, mark ≠ 33 ∧ mark ≠ 94) (body : Members true text members)
      : IsClass text (.oneOf false members)

/-- How a pattern reads, from its start or behind a slash where the flag says so. A pattern with a
bracket that opens no class, or with a backslash at its end, does not read at all.
-/
inductive Reads : Bool → Bytes → List Part → Prop where
  | done {starts : Bool} : Reads starts [] []
  | escaped {starts : Bool} (byte : UInt8) {rest : Bytes} {parts : List Part}
      (more : Reads (decide (byte = slash)) rest parts)
      : Reads starts (92 :: byte :: rest) (.byte byte :: parts)
  | anyByte {starts : Bool} {rest : Bytes} {parts : List Part} (more : Reads false rest parts)
      : Reads starts (63 :: rest) (.anyByte :: parts)
  | directories {rest : Bytes} {parts : List Part} (more : Reads true rest parts)
      : Reads true (42 :: 42 :: slash :: rest) (.directories :: parts)
  | everything : Reads true [42, 42] [.everything]
  | star {starts : Bool} {more : Nat} {rest : Bytes} {parts : List Part}
      (all : rest.head? ≠ some 42)
      (single : ¬(starts = true ∧ more = 1 ∧ (rest = [] ∨ rest.head? = some slash)))
      (behind : Reads false rest parts)
      : Reads starts (42 :: (List.replicate more 42 ++ rest)) (.star :: parts)
  | oneOf {starts : Bool} {text rest : Bytes} {part : Part} {parts : List Part}
      (isClass : IsClass text part) (more : Reads false rest parts)
      : Reads starts (91 :: (text ++ rest)) (part :: parts)
  | byte {starts : Bool} {byte : UInt8} {rest : Bytes} {parts : List Part}
      (plain : byte ∉ [92, 63, 42, 91]) (more : Reads (decide (byte = slash)) rest parts)
      : Reads starts (byte :: rest) (.byte byte :: parts)

-- Matching

/-- What the parts of a pattern match. -/
inductive Denotes : List Part → Bytes → Prop where
  | done : Denotes [] []
  | byte {rest : Bytes} {parts : List Part} {byte : UInt8} (more : Denotes parts rest)
      : Denotes (.byte byte :: parts) (byte :: rest)
  | anyByte {rest : Bytes} {parts : List Part} {byte : UInt8} (other : byte ≠ slash)
      (more : Denotes parts rest)
      : Denotes (.anyByte :: parts) (byte :: rest)
  | star {run rest : Bytes} {parts : List Part} (inside : slash ∉ run)
      (more : Denotes parts rest)
      : Denotes (.star :: parts) (run ++ rest)
  | oneOf {rest : Bytes} {parts : List Part} {byte : UInt8} {negated : Bool}
      {members : UInt8 → Prop} (other : byte ≠ slash) (among : members byte ↔ negated = false)
      (more : Denotes parts rest)
      : Denotes (.oneOf negated members :: parts) (byte :: rest)
  | directories {above rest : Bytes} {parts : List Part}
      (whole : above = [] ∨ above.getLast? = some slash) (more : Denotes parts rest)
      : Denotes (.directories :: parts) (above ++ rest)
  | everything {rest : Bytes} (some_ : rest ≠ []) : Denotes [.everything] rest

/-- The file name of a path. -/
def baseName (path : Bytes) : Bytes :=
  (path.splitOn slash).getLast?.getD path

/-- A pattern matches a file by its path below the directory of the attribute file. Without a slash
it is for the file name; with one it is for the whole path.
-/
def Matches (pattern path : Bytes) : Prop :=
  pattern.getLast? ≠ some slash
  ∧ if slash ∈ pattern then
      ∃ parts,
        Reads true (if pattern.head? = some slash then pattern.tail else pattern) parts
        ∧ Denotes parts path
    else ∃ parts, Reads false pattern parts ∧ Denotes parts (baseName path)

-- Globs

variable {pattern : Bytes}

/-- How a compiled pattern that is not for directories is tried on a path, or on a name where it has
no slash.
-/
theorem matchesPath_file {subject : Bytes} (files : pattern.getLast? ≠ some slash)
    (name : slash ∉ pattern → slash ∉ subject)
    : (Glob.fromBytes pattern).matchesPath subject
      = Glob.matchesTokens (Glob.fromBytes pattern).tokens subject := by
  have plain : ¬(Glob.fromBytes pattern).directoryOnly = true := fun only =>
    files (GlobPattern.directoryOnly_fromBytes.mp only)
  rw [Glob.matchesPath]
  by_cases names : GlobPattern.nameOnly pattern
  · rw [if_pos (GlobPattern.nameOnly_fromBytes.mpr names), if_neg plain]
    have clean : slash ∉ pattern := by
      obtain ⟨rooted, clean⟩ := names
      rw [GlobPattern.anchored, GlobPattern.trimmed, if_neg files] at rooted
      rwa [GlobPattern.body, GlobPattern.trimmed, if_neg files, if_neg rooted] at clean
    rw [splitOn_component (name clean), List.any_cons, List.any_nil, Bool.or_false]
  · rw [if_neg fun only => names (GlobPattern.nameOnly_fromBytes.mp only), if_neg plain]

/-- A pattern of plain bytes, question marks and single asterisks. -/
def Plain (pattern : Bytes) : Prop :=
  (∀ byte ∈ pattern, byte ≠ 92 ∧ byte ≠ 91) ∧ ¬[42, 42] <:+: pattern

instance (pattern : Bytes) : Decidable (Plain pattern) :=
  inferInstanceAs (Decidable (_ ∧ ¬_))

/-- What a byte of such a pattern reads as. -/
def partOf (byte : UInt8) : Part :=
  if byte = 63 then .anyByte else if byte = 42 then .star else .byte byte

/-- What it is compiled to. -/
def tokenOf (byte : UInt8) : Token :=
  if byte = 63 then .anyByte else if byte = 42 then .star else .byte byte

theorem Plain.tail {byte : UInt8} {rest : Bytes} (plain : Plain (byte :: rest)) : Plain rest :=
  ⟨fun other member => plain.1 other (List.mem_cons_of_mem _ member),
    fun double => plain.2 (double.trans (List.suffix_cons byte rest).isInfix)⟩

theorem Plain.single {rest : Bytes} (plain : Plain (42 :: rest)) : rest.head? ≠ some 42 := by
  intro again
  obtain ⟨more, rfl⟩ := List.head?_eq_some_iff.mp again
  exact plain.2 ⟨[], more, rfl⟩

theorem Plain.reads (plain : Plain pattern) (starts : Bool)
    : Reads starts pattern (pattern.map partOf) := by
  induction pattern generalizing starts with
  | nil => exact .done
  | cons byte rest ih =>
      rw [List.map_cons, partOf]
      by_cases any : byte = 63
      · rw [if_pos any, any]
        exact .anyByte (ih plain.tail false)
      · rw [if_neg any]
        by_cases asterisk : byte = 42
        · subst asterisk
          rw [if_pos rfl]
          exact @Reads.star starts 0 rest _ plain.single (fun run => absurd run.2.1 (by decide))
            (ih plain.tail false)
        · rw [if_neg asterisk]
          obtain ⟨backslash, bracket⟩ := plain.1 byte List.mem_cons_self
          refine .byte ?_ (ih plain.tail _)
          simp only [List.mem_cons, List.not_mem_nil, or_false, not_or]
          exact ⟨backslash, any, asterisk, bracket⟩

theorem Plain.reads_unique {starts : Bool} {parts : List Part} (reads : Reads starts pattern parts)
    (plain : Plain pattern)
    : parts = pattern.map partOf := by
  induction reads with
  | done => rfl
  | escaped => exact absurd rfl (plain.1 92 List.mem_cons_self).1
  | anyByte _ ih => rw [ih plain.tail, List.map_cons, partOf, if_pos rfl]
  | directories | everything => exact absurd rfl plain.single
  | @star _ more rest _ _ _ _ ih =>
      cases more with
      | zero =>
          rw [List.replicate_zero, List.nil_append] at plain ⊢
          rw [ih plain.tail, List.map_cons, partOf, if_neg (by decide), if_pos rfl]
      | succ more => exact absurd rfl plain.single
  | oneOf => exact absurd rfl (plain.1 91 List.mem_cons_self).2
  | byte other _ ih =>
      simp only [List.mem_cons, List.not_mem_nil, or_false, not_or] at other
      rw [ih plain.tail, List.map_cons, partOf, if_neg other.2.1, if_neg other.2.2.1]

theorem Plain.compiled (plain : Plain pattern)
    : Types.Reads pattern (pattern.map tokenOf) := by
  induction pattern with
  | nil => exact .done
  | cons byte rest ih =>
      rw [List.map_cons, tokenOf]
      by_cases any : byte = 63
      · rw [if_pos any, any]
        exact .anyByte (ih plain.tail)
      · rw [if_neg any]
        by_cases asterisk : byte = 42
        · subst asterisk
          rw [if_pos rfl]
          exact .star plain.single (ih plain.tail)
        · rw [if_neg asterisk]
          obtain ⟨backslash, bracket⟩ := plain.1 byte List.mem_cons_self
          refine .byte ?_ (ih plain.tail)
          simp only [List.mem_cons, List.not_mem_nil, or_false, not_or]
          exact ⟨backslash, any, asterisk, bracket⟩

/-- The bytes of a plain pattern match alike. -/
theorem denotes_iff {subject : Bytes} (before : Bytes)
    : Types.Denotes (fun _ _ _ => True) before (pattern.map tokenOf) subject
      ↔ Denotes (pattern.map partOf) subject := by
  induction pattern generalizing before subject with
  | nil =>
      constructor
      · rintro ⟨⟩
        exact .done
      · rintro ⟨⟩
        exact .done
  | cons byte rest ih =>
      rw [List.map_cons, List.map_cons, tokenOf, partOf]
      by_cases any : byte = 63
      · rw [if_pos any, if_pos any]
        constructor
        · intro denotes
          cases denotes with
          | anyByte other more => exact .anyByte other ((ih _).mp more)
        · intro denotes
          cases denotes with
          | anyByte other more => exact .anyByte other ((ih _).mpr more)
      · rw [if_neg any, if_neg any]
        by_cases asterisk : byte = 42
        · rw [if_pos asterisk, if_pos asterisk]
          constructor
          · intro denotes
            cases denotes with
            | star inside more => exact .star inside ((ih _).mp more)
          · intro denotes
            cases denotes with
            | star inside more => exact .star inside ((ih _).mpr more)
        · rw [if_neg asterisk, if_neg asterisk]
          constructor
          · intro denotes
            cases denotes with
            | byte more => exact .byte ((ih _).mp more)
          · intro denotes
            cases denotes with
            | byte more => exact .byte ((ih _).mpr more)

theorem slash_not_mem_baseName (path : Bytes) : slash ∉ baseName path := by
  rw [baseName]
  cases last : (path.splitOn slash).getLast? with
  | none =>
      have none_ := List.getLast?_eq_none_iff.mp last
      exact absurd none_ (List.splitOn_ne_nil _ _)
  | some name =>
      rw [Option.getD_some]
      intro inside
      exact absurd (Lib.Pieces.clean_of_mem (List.mem_of_getLast? last) slash inside) (by decide)

theorem Plain.matchesTokens_iff {body subject : Bytes} (plain : Plain body) (starts : Bool)
    : Glob.matchesTokens (tokensOf body.length body) subject = true
      ↔ ∃ parts, Reads starts body parts ∧ Denotes parts subject := by
  rw [Glob.matchesTokens_iff [], ← (reads_iff (Nat.le_refl _)).mp plain.compiled, denotes_iff]
  constructor
  · intro denotes
    exact ⟨_, plain.reads starts, denotes⟩
  · rintro ⟨parts, reads, denotes⟩
    rwa [plain.reads_unique reads] at denotes

/-- A plain pattern is compiled to what it means. -/
theorem Plain.matches_iff {path : Bytes} (plain : Plain pattern)
    (files : pattern.getLast? ≠ some slash)
    : (Glob.fromBytes pattern).matchesPath (if slash ∈ pattern then path else baseName path) = true
      ↔ Matches pattern path := by
  have body
      : GlobPattern.body pattern
        = if pattern.head? = some slash then pattern.tail else pattern := by
    rw [GlobPattern.body, GlobPattern.trimmed, if_neg files]
  have plainBody : Plain (GlobPattern.body pattern) := by
    rw [body]
    split
    · cases pattern with
      | nil => exact plain
      | cons byte rest => exact plain.tail
    · exact plain
  rw [matchesPath_file files, GlobPattern.tokens_fromBytes, Matches]
  · by_cases slashed : slash ∈ pattern
    · rw [if_pos slashed, if_pos slashed, ← body, plainBody.matchesTokens_iff true]
      exact (and_iff_right files).symm
    · have unrooted : GlobPattern.body pattern = pattern := by
        rw [body, if_neg]
        exact fun first => slashed (List.mem_of_head? first)
      rw [if_neg slashed, if_neg slashed, unrooted, plain.matchesTokens_iff false]
      exact (and_iff_right files).symm
  · intro clean
    rw [if_neg clean]
    exact slash_not_mem_baseName path

end Gfs.Git.Pattern
