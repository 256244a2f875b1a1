import Gfs.Types.Glob
import Gfs.Types.Text

/-! The `filter` attribute of a path (`gfs-git/src/attributes.rs`). -/

namespace Gfs.Git

open Gfs.Types

-- Attribute files

/-- The resolved state of the `filter` attribute for one path. -/
inductive FilterState where
  | set
  | unset
  | unspecified
  | value (value : Text)
  deriving DecidableEq, Repr

/-- One parsed line that assigns `filter` something. -/
structure Rule where
  pattern : Glob
  /-- The pattern contains no slash, so it matches the basename. -/
  basenameOnly : Bool
  state : FilterState
  deriving DecidableEq, Repr

/-- A parsed `.gitattributes` blob, keeping only the lines that touch `filter`. -/
structure AttributeFile where
  rules : List Rule
  deriving DecidableEq, Repr

/-- `u8::is_ascii_whitespace`. -/
def isAsciiWhitespace (b : UInt8) : Bool :=
  b = 32 || b = 9 || b = 10 || b = 12 || b = 13

def trimAscii (bytes : Bytes) : Bytes :=
  (bytes.dropWhile isAsciiWhitespace).rdropWhile isAsciiWhitespace

/-- `filter`, and what may stand before or behind it. -/
def filterName : Bytes := [102, 105, 108, 116, 101, 114]

/-- What an attribute makes of the state the attributes before it left. -/
def FilterState.assign (state : Option FilterState) (attr : Bytes) : Option FilterState :=
  if attr = filterName then some .set
  else if attr = 45 :: filterName then some .unset
  else if attr = 33 :: filterName then some .unspecified
  else if (filterName ++ [61]).isPrefixOf attr then
    some (.value (Text.fromUtf8Lossy (attr.drop 7)))
  else state

/-- The rule of one line. Comments, negative patterns, directory patterns and lines that leave
`filter` alone have none.
-/
def parseRule (line : Bytes) : Option Rule :=
  match trimAscii line with
  | [] => none
  | first :: rest =>
      -- `#` and `!`.
      if first = 35 ∨ first = 33 then none
      else
        match ((first :: rest).splitOnP isAsciiWhitespace).filter (fun f => !f.isEmpty) with
        | [] => none
        | pattern :: attrs =>
            if pattern.getLast? = some slash then none
            else
              (attrs.foldl FilterState.assign none).map
                (fun state => ⟨Glob.fromBytes pattern, !pattern.contains slash, state⟩)

namespace AttributeFile

/-- The file of a directory that has none. -/
def empty : AttributeFile := ⟨[]⟩

def parse (content : Bytes) : AttributeFile where
  rules := (content.splitOn 10).filterMap parseRule

/-- The state this file assigns to a path relative to its directory. The last matching line
wins.
-/
def filterFor (file : AttributeFile) (relPath : Bytes) : Option FilterState :=
  let basename := (relPath.splitOn slash).getLast?.getD relPath
  (file.rules.reverse.find? (fun rule =>
    if rule.basenameOnly then rule.pattern.matchesPath basename
    else rule.pattern.matchesPath relPath)).map Rule.state

end AttributeFile

-- Attribute stacks

/-- Drop the first components of a path. -/
def stripComponents (path : Bytes) : Nat → Bytes
  | 0 => path
  | n + 1 =>
      match path.dropWhile (· ≠ slash) with
      | [] => []
      | _ :: rest => stripComponents rest n

/-- Resolve the `filter` attribute against a stack ordered root-first. Deeper files take
precedence.
-/
def resolveFilter (stack : List AttributeFile) (path : Bytes) : Option FilterState :=
  stack.zipIdx.reverse.findSome? (fun level => level.1.filterFor (stripComponents path level.2))

/-- Whether the resolved state means that the path is LFS-filtered. -/
def isLfs (state : Option FilterState) : Bool :=
  state = some (.value "lfs".toList)

end Gfs.Git
