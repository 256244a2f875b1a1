import Gfs.Git.Patterns
import Gfs.Lib.Verdicts
import Gfs.Types.GlobGrammar
import Gfs.Types.Text

/-! The ignore rules of a search over local content (`gfs-search/src/local.rs`) beside Git's. Git
decides level by level, from the directories above a path down to the path itself; the rules here
are put to the whole path once.
-/

namespace Gfs.Search.Ignore

open Gfs.Types
open Gfs.Lib

-- Rules

/-- A compiled line of an ignore file. -/
structure IgnoreRule where
  glob : Glob
  /-- A `!` prefix: this pattern un-ignores what an earlier one ignored. -/
  negated : Bool
  /-- The directory the file was found in. -/
  base : Bytes
  deriving DecidableEq, Repr

/-- `u8::is_ascii_whitespace`. -/
def isAsciiWhitespace (b : UInt8) : Bool :=
  b = 9 || b = 10 || b = 12 || b = 13 || b = 32

def trim (line : Bytes) : Bytes :=
  (line.dropWhile isAsciiWhitespace).rdropWhile isAsciiWhitespace

/-- What one line of a file adds: a blank line and a comment nothing. -/
def ruleOf (directory line : Bytes) : Option IgnoreRule :=
  match trim line with
  | [] => none
  | 35 :: _ => none
  | 33 :: pattern =>
      if pattern = [] then none else some ⟨Glob.fromBytes pattern, true, directory⟩
  | pattern => some ⟨Glob.fromBytes pattern, false, directory⟩

/-- Add the contents of one ignore file, found at `directory`. -/
def addFile (rules : List IgnoreRule) (directory contents : Bytes) : List IgnoreRule :=
  rules ++ (contents.splitOn 10).filterMap (ruleOf directory)

/-- The rules of files added one after the other. -/
def rulesOf (files : List (Bytes × Bytes)) : List IgnoreRule :=
  files.foldl (fun rules file => addFile rules file.1 file.2) []

/-- A path as seen from a directory, if it is below it. -/
def stripBase (path base : Bytes) : Option Bytes :=
  if base = [] then some path
  else if (base ++ [slash]).isPrefixOf path then some (path.drop (base.length + 1))
  else none

/-- Whether a rule's pattern matches a path. -/
def IgnoreRule.hits (path : Bytes) (rule : IgnoreRule) : Bool :=
  match stripBase path rule.base with
  | none => false
  | some relative => rule.glob.matchesPath relative

/-- Whether a path is ignored: the last matching rule wins. -/
def ignores (rules : List IgnoreRule) (path : Bytes) : Bool :=
  rules.foldl (fun ignored rule => if rule.hits path then !rule.negated else ignored) false

-- Git

/-- A pattern of an ignore file as Git keeps it, without its `!`. -/
structure GitPattern where
  pattern : Bytes
  negated : Bool
  base : Bytes
  deriving DecidableEq, Repr

/-- A file as Git reads it: a byte order mark in front is no part of it. -/
def skipBom (contents : Bytes) : Bytes :=
  match contents with
  | 239 :: 187 :: 191 :: rest => rest
  | _ => contents

/-- Spaces at the end of a line are taken off, up to one that a backslash escapes. -/
def trimSpaces : Bytes → Bytes
  | [] => []
  | 92 :: byte :: rest => 92 :: byte :: trimSpaces rest
  | byte :: rest =>
      if byte = 32 && rest.all (· = 32) then [] else byte :: trimSpaces rest

/-- A line as Git takes it: a carriage return before the newline belongs to the line's end, and a
NUL ends a line as well.
-/
def gitLine (line : Bytes) : Bytes :=
  trimSpaces ((if line.getLast? = some 13 then line.dropLast else line).takeWhile (· ≠ 0))

/-- What one line gives Git. An empty pattern would match nothing. -/
def gitPatternOf (directory line : Bytes) : Option GitPattern :=
  match gitLine line with
  | [] => none
  | 35 :: _ => none
  | 33 :: pattern => if pattern = [] then none else some ⟨pattern, true, directory⟩
  | pattern => some ⟨pattern, false, directory⟩

/-- The patterns of files read one after the other. -/
def gitPatternsOf (files : List (Bytes × Bytes)) : List GitPattern :=
  files.flatMap (fun file => ((skipBom file.2).splitOn 10).filterMap (gitPatternOf file.1))

/-- The directories above a path and the path itself, from the root down, and whether each is a
directory.
-/
def levels (path : Bytes) : List (Bytes × Bool) :=
  ((List.range path.length).filter (fun index => path[index]? = some slash)).map
      (fun index => (path.take index, true))
  ++ [(path, false)]

instance (pattern : Bytes) : Decidable (GlobPattern.nameOnly pattern) :=
  inferInstanceAs (Decidable (¬_ ∧ _))

/-- What of a path a pattern is put to: the last component where the pattern has no slash. -/
def GitPattern.subject (git : GitPattern) (relative : Bytes) : Bytes :=
  if GlobPattern.nameOnly git.pattern then Git.Pattern.baseName relative else relative

/-- What a pattern's body matches as it is documented, `**` beside slashes included. -/
def GitPattern.Means (git : GitPattern) (subject : Bytes) : Prop :=
  ∃ parts,
    Git.Pattern.Reads (!decide (GlobPattern.nameOnly git.pattern)) (GlobPattern.body git.pattern)
      parts
    ∧ Git.Pattern.Denotes parts subject

open Classical in
/-- Git's match of a pattern's body. -/
noncomputable def documented (git : GitPattern) (subject : Bytes) : Bool :=
  decide (git.Means subject)

/-- Whether a pattern matches one level, by a match of its body: with a trailing slash only a
directory, without a slash else by its last component, with one by its path from the pattern's
directory.
-/
def GitPattern.matchesAt (wild : GitPattern → Bytes → Bool) (level : Bytes × Bool)
    (git : GitPattern)
    : Bool :=
  match stripBase level.1 git.base with
  | none => false
  | some relative =>
      (!decide (GlobPattern.directoryOnly git.pattern) || level.2)
      && wild git (git.subject relative)

/-- A path is excluded where the last pattern that matches it or a directory above it does so. What
is below an excluded directory is not looked at again.
-/
def gitExcludes (wild : GitPattern → Bytes → Bool) (patterns : List GitPattern) (path : Bytes)
    : Bool :=
  (levels path).any (fun level =>
    (Verdicts.last (GitPattern.matchesAt wild level) patterns).any (fun git => !git.negated))

/-- The rules ignore a path where Git excludes it. -/
def Agree (files : List (Bytes × Bytes)) (path : Bytes) : Prop :=
  ignores (rulesOf files) path = gitExcludes documented (gitPatternsOf files) path

-- Lines

/-- A line of an ignore file, and what is left of it when Git has taken a mark off the file. -/
structure Line where
  directory : Bytes
  text : Bytes
  gitText : Bytes
  deriving DecidableEq

namespace Line

variable (line : Line)

def rule : Option IgnoreRule :=
  ruleOf line.directory line.text

/-- What the rule of a line makes of a path: nothing, or whether it is a `!`. -/
def verdict (path : Bytes) : Option Bool :=
  line.rule.bind (fun rule => if rule.hits path then some rule.negated else none)

end Line

/-- The rule a pattern is compiled to. -/
def GitPattern.compiled (git : GitPattern) : IgnoreRule :=
  ⟨Glob.fromBytes git.pattern, git.negated, git.base⟩

/-- A pattern with a slash that matches a directory above the path matches the path too; one for
directories that matches the path matches one above it as well. A pattern for every component
has nothing to fear.
-/
def Consistent (path : Bytes) (git : GitPattern) : Prop :=
  ∀ relative,
    stripBase path git.base = some relative
    → ¬GlobPattern.nameOnly git.pattern
    → let found := Glob.matchesTokens (Glob.fromBytes git.pattern).tokens
      if GlobPattern.directoryOnly git.pattern then
        found relative = true → ∃ front, front ++ [slash] <+: relative ∧ found front = true
      else (∃ front, front ++ [slash] <+: relative ∧ found front = true) → found relative = true

section Agreement

variable {wild : GitPattern → Bytes → Bool} {files : List (Bytes × Bytes)} {path : Bytes}

end Agreement

section Plain

variable {files : List (Bytes × Bytes)}
  (plain : ∀ git ∈ gitPatternsOf files, Git.Pattern.Plain (GlobPattern.body git.pattern))

include plain

end Plain

/-- An ignore file at the root. -/
def rootFile (contents : Text) : List (Bytes × Bytes) :=
  [([], contents.utf8)]

end Gfs.Search.Ignore
