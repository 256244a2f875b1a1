import Gfs.Types.Oid
import Gfs.Types.Decimal

/-! Git LFS pointer files (`gfs-types/src/lfs.rs`). -/

namespace Gfs.Types

/-- A blob above this size is no pointer. -/
def maxPointerSize : Nat := 1024

/-- The spelling that is written, then the one that is read as well. -/
def versionUrls : List Text :=
  ["https://git-lfs.github.com/spec/v1".toList, "https://hawser.github.com/spec/v1".toList]

/-- A parsed pointer. -/
structure LfsPointer where
  oid : ObjectId
  size : Nat
  deriving DecidableEq, Repr

/-- `str::split_inclusive` of a line feed. -/
def splitInclusive : Text → List Text
  | [] => []
  | c :: rest =>
      if c = '\n' then ['\n'] :: splitInclusive rest
      else
        match splitInclusive rest with
        | [] => [[c]]
        | line :: lines => (c :: line) :: lines

/-- `str::strip_suffix` of a line feed. -/
def stripNewline (line : Text) : Option Text :=
  if line.getLast? = some '\n' then some line.dropLast else none

/-- `str::strip_prefix`. -/
def stripPrefix (lead text : Text) : Option Text :=
  if lead.isPrefixOf text then some (text.drop lead.length) else none

/-- `str::split_once` of a space. -/
def splitSpace (text : Text) : Option (Text × Text) :=
  match text.dropWhile (· ≠ ' ') with
  | [] => none
  | _ :: value => some (text.takeWhile (· ≠ ' '), value)

/-- `str::parse` of a `u64`, which may have a plus sign in front. -/
def parseU64 (text : Text) : Option Nat :=
  let digits := if text.head? = some '+' then text.tail else text
  if digits = [] then none
  else if !digits.all Char.isDigit then none
  else if Nat.ofDigitChars 10 digits 0 < 2 ^ 64 then some (Nat.ofDigitChars 10 digits 0)
  else none

/-- The fields of a pointer's lines, each ended by a line feed. A later field takes the place of
an earlier one, and unknown keys are legal.
-/
def pointerFields : List Text → Option ObjectId → Option Nat → Option LfsPointer
  | [], oid, size =>
      match oid, size with
      | some oid, some size => some ⟨oid, size⟩
      | _, _ => none
  | line :: lines, oid, size =>
      match (stripNewline line).bind splitSpace with
      | none => none
      | some (key, value) =>
          if key = "oid".toList then
            match (stripPrefix "sha256:".toList value).map (ObjectId.fromHex .lfsSha256) with
            | some (.ok oid) => pointerFields lines (some oid) size
            | _ => none
          else if key = "size".toList then
            match parseU64 value with
            | some size => pointerFields lines oid (some size)
            | none => none
          else pointerFields lines oid size

/-- Parse a blob as a pointer. Anything that is not one is an ordinary answer. -/
def parsePointer (content : Bytes) : Option LfsPointer :=
  if content = [] ∨ content.length > maxPointerSize then none
  else
    match (Text.fromUtf8 content).map splitInclusive with
    | some (version :: lines) =>
        match (stripNewline version).bind (stripPrefix "version ".toList) with
        | some url => if url ∈ versionUrls then pointerFields lines none none else none
        | none => none
    | _ => none

-- Round trips

theorem stripPrefix_append (lead text : Text) : stripPrefix lead (lead ++ text) = some text := by
  rw [stripPrefix, if_pos (List.isPrefixOf_iff_prefix.mpr (List.prefix_append _ _)),
    List.drop_left]

theorem stripPrefix_some {lead text rest : Text} (stripped : stripPrefix lead text = some rest)
    : text = lead ++ rest := by
  unfold stripPrefix at stripped
  split at stripped
  · rename_i leads
    obtain ⟨rest', rfl⟩ := List.isPrefixOf_iff_prefix.mp leads
    rw [List.drop_left] at stripped
    rw [Option.some.inj stripped]
  · cases stripped

end Gfs.Types
