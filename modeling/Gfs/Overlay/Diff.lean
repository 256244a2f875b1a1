import Gfs.Overlay.Myers
import Gfs.Types.Decimal

/-! Unified diffs (`gfs-overlay/src/diff.rs`), and what applying one does.
-/

namespace Gfs.Overlay.Diff

open Gfs.Types
open Gfs.Lib.Scripts

-- Lines

def newline : UInt8 := 10

/-- `bytes.split(|b| *b == b'\n')`. -/
def splitLines : Bytes → List Bytes
  | [] => [[]]
  | b :: rest =>
      if b = newline then [] :: splitLines rest
      else
        match splitLines rest with
        | [] => [[b]]
        | first :: more => (b :: first) :: more

/-- Split into lines, keeping the information about a missing final newline. -/
def lines (bytes : Bytes) : List Bytes × Bool :=
  if bytes = [] then ([], true)
  else if bytes.getLast? = some newline then (splitLines bytes.dropLast, true)
  else (splitLines bytes, false)

/-- How many bytes are looked at for a NUL. -/
def sniff : Nat := 8000

/-- Git's rule: a NUL among the first bytes. -/
def isBinary (bytes : Bytes) : Bool :=
  (bytes.take sniff).contains 0

-- Hunks

/-- Whether an edit keeps its line. -/
def isKeep : Edit Bytes → Bool
  | .keep _ => true
  | _ => false

/-- Whether nothing later in the script touches this side. -/
def isLast (rest : List (Edit Bytes)) (oldSide : Bool) : Bool :=
  !rest.any (fun edit =>
    match edit with
    | .keep _ => true
    | .remove _ => oldSide
    | .insert _ => !oldSide)

section Hunks

variable (context : Nat)

/-- The last change of a hunk: the loop from its first, over what is left of the script. -/
def lastChange : Nat → Nat → Nat → List (Edit Bytes) → Nat
  | _, _, last, [] => last
  | position, run, last, edit :: rest =>
      if isKeep edit then
        if run + 1 > context * 2 then last else lastChange (position + 1) (run + 1) last rest
      else lastChange (position + 1) 0 position rest

/-- Where each hunk begins and ends in the script, from an index on. -/
def hunkRanges (script : List (Edit Bytes)) : Nat → Nat → List (Nat × Nat)
  | 0, _ => []
  | fuel + 1, index =>
      match (script.drop index).findIdx? (fun edit => !isKeep edit) with
      | none => []
      | some offset =>
          let first := index + offset
          let last := lastChange context first 0 first (script.drop first)
          let stop := min (last + context + 1) script.length
          (first - context, stop) :: hunkRanges script fuel stop

end Hunks

/-- The bytes of an ASCII text. -/
def text (string : String) : Bytes :=
  string.toList.map (fun c => UInt8.ofNat c.toNat)

/-- The line after one that has no newline. -/
def noNewline : Bytes := text "\\ No newline at end of file"

/-- A hunk's header line. -/
def header (oldStart oldCount newStart newCount : Nat) : Bytes :=
  text "@@ -" ++ decimal oldStart ++ text "," ++ decimal oldCount ++ text " +"
  ++ decimal newStart ++ text "," ++ decimal newCount ++ text " @@"

section Unified

variable (oldComplete newComplete : Bool)

/-- One edit's line, and the marker that its side ends without a newline. -/
def editLine (edit : Edit Bytes) (rest : List (Edit Bytes)) : Bytes :=
  let (marker, line, lastOfSide, complete) : UInt8 × Bytes × Bool × Bool :=
    match edit with
    | .keep a => (32, a, rest.isEmpty, oldComplete && newComplete)
    | .remove a => (45, a, isLast rest true, oldComplete)
    | .insert b => (43, b, isLast rest false, newComplete)
  (marker :: line) ++ [newline]
  ++ if lastOfSide && !complete then noNewline ++ [newline] else []

/-- The lines of the first edits of what is left of the script. -/
def editLines : Nat → List (Edit Bytes) → Bytes
  | 0, _ => []
  | _, [] => []
  | count + 1, edit :: rest => editLine oldComplete newComplete edit rest ++ editLines count rest

/-- One hunk. -/
def hunk (script : List (Edit Bytes)) (range : Nat × Nat) : Bytes :=
  let (start, stop) := range
  let oldStart := (before (script.take start)).length
  let newStart := (after (script.take start)).length
  let oldCount := (before ((script.take stop).drop start)).length
  let newCount := (after ((script.take stop).drop start)).length
  header (if oldCount = 0 then oldStart else oldStart + 1) oldCount
    (if newCount = 0 then newStart else newStart + 1) newCount
  ++ [newline]
  ++ editLines oldComplete newComplete (stop - start) (script.drop start)

end Unified

/-- A unified diff with `context` lines of context. -/
def unified (old new : Bytes) (context : Nat) : Bytes :=
  let (oldLines, oldComplete) := lines old
  let (newLines, newComplete) := lines new
  let script := myers oldLines newLines
  (hunkRanges context script script.length 0).flatMap (hunk oldComplete newComplete script)

example : unified (text "a\nb\nc\n") (text "a\nB\nc\n") 3
    = text "@@ -1,3 +1,3 @@\n a\n-b\n+B\n c\n" := by
  decide

-- Reading a diff

inductive Marker where
  | context
  | removed
  | added
  deriving DecidableEq

/-- A file's line, and whether a newline ends it. -/
abbrev FileLine := Bytes × Bool

/-- A line of a hunk. -/
structure HunkLine where
  marker : Marker
  line : FileLine
  deriving DecidableEq

structure Hunk where
  oldStart : Nat
  oldCount : Nat
  newStart : Nat
  newCount : Nat
  body : List HunkLine
  deriving DecidableEq

/-- Each line of a diff, and whether the marker that takes its newline away follows. -/
def attach : List Bytes → List FileLine
  | [] => []
  | [line] => [(line, true)]
  | line :: next :: rest =>
      if next = noNewline then (line, false) :: attach rest
      else (line, true) :: attach (next :: rest)

/-- What is left of the bytes after a text they begin with. -/
def expect (prefix_ bytes : Bytes) : Option Bytes :=
  if prefix_.isPrefixOf bytes then some (bytes.drop prefix_.length) else none

/-- The ranges of a header line. -/
def readHeader (line : Bytes) : Option (Nat × Nat × Nat × Nat) := do
  let rest ← expect (text "@@ -") line
  let (oldStart, rest) ← readNumber rest
  let rest ← expect (text ",") rest
  let (oldCount, rest) ← readNumber rest
  let rest ← expect (text " +") rest
  let (newStart, rest) ← readNumber rest
  let rest ← expect (text ",") rest
  let (newCount, rest) ← readNumber rest
  if rest = text " @@" then some (oldStart, oldCount, newStart, newCount) else none

/-- The marker of a body line. -/
def readMarker (b : UInt8) : Option Marker :=
  if b = 32 then some .context
  else if b = 45 then some .removed
  else if b = 43 then some .added
  else none

/-- The lines before the first header, and the hunks from it on. -/
def readLines : List FileLine → Option (List HunkLine × List Hunk)
  | [] => some ([], [])
  | (line, ended) :: rest => do
      let (body, hunks) ← readLines rest
      match line with
      | [] => none
      | b :: content =>
          if b = 64 then do
            let (oldStart, oldCount, newStart, newCount) ← readHeader line
            some ([], ⟨oldStart, oldCount, newStart, newCount, body⟩ :: hunks)
          else do
            let marker ← readMarker b
            some (⟨marker, (content, ended)⟩ :: body, hunks)

/-- The hunks of a diff. -/
def readHunks (diff : Bytes) : Option (List Hunk) := do
  let (body, hunks) ← readLines (attach (lines diff).1)
  if body = [] then some hunks else none

-- Applying a diff

/-- Lines of which all but the last end in a newline, and the last where the file is complete. -/
def mark (complete : Bool) : List Bytes → List FileLine
  | [] => []
  | line :: rest => (line, !rest.isEmpty || complete) :: mark complete rest

/-- A file's lines. -/
def fileLines (bytes : Bytes) : List FileLine :=
  mark (lines bytes).2 (lines bytes).1

/-- The bytes of a file of some lines. -/
def fileBytes (file : List FileLine) : Bytes :=
  file.flatMap (fun line => line.1 ++ if line.2 then [newline] else [])

namespace Hunk

/-- How many lines of the old file come before the hunk. -/
def oldAt (hunk : Hunk) : Nat :=
  if hunk.oldCount = 0 then hunk.oldStart else hunk.oldStart - 1

/-- How many lines of the new file come before the hunk. -/
def newAt (hunk : Hunk) : Nat :=
  if hunk.newCount = 0 then hunk.newStart else hunk.newStart - 1

/-- The counts of the header are those of the body. -/
def Counted (hunk : Hunk) : Prop :=
  hunk.oldCount = hunk.body.countP (fun line => line.marker ≠ .added)
  ∧ hunk.newCount = hunk.body.countP (fun line => line.marker ≠ .removed)

instance (hunk : Hunk) : Decidable hunk.Counted :=
  inferInstanceAs (Decidable (_ ∧ _))

end Hunk

/-- Apply a hunk's lines to a file from a line on: the lines they make, and the rest. -/
def applyBody : List HunkLine → List FileLine → Option (List FileLine × List FileLine)
  | [], rest => some ([], rest)
  | ⟨.added, line⟩ :: body, rest => do
      let (made, rest) ← applyBody body rest
      some (line :: made, rest)
  | ⟨.removed, line⟩ :: body, rest =>
      match rest with
      | [] => none
      | found :: rest => if found = line then applyBody body rest else none
  | ⟨.context, line⟩ :: body, rest =>
      match rest with
      | [] => none
      | found :: rest =>
          if found = line then do
            let (made, rest) ← applyBody body rest
            some (line :: made, rest)
          else none

/-- Apply hunks to the rest of a file, of which so many lines are read and so many written. A
hunk that does not lie after what was read, whose counts are wrong or whose lines do not match is
refused.
-/
def applyHunks (done made : Nat) : List Hunk → List FileLine → Option (List FileLine)
  | [], rest => some rest
  | hunk :: hunks, rest =>
      let gap := hunk.oldAt - done
      if done ≤ hunk.oldAt ∧ gap ≤ rest.length ∧ hunk.newAt = made + gap ∧ hunk.Counted then do
        let (new, left) ← applyBody hunk.body (rest.drop gap)
        let others ← applyHunks (hunk.oldAt + hunk.oldCount) (hunk.newAt + hunk.newCount) hunks left
        some (rest.take gap ++ new ++ others)
      else none

/-- Apply a diff to a file. -/
def patch (diff old : Bytes) : Option Bytes := do
  let hunks ← readHunks diff
  let file ← applyHunks 0 0 hunks (fileLines old)
  some (fileBytes file)

/-- Hunks in increasing order, disjoint on both sides, with the counts of their lines. -/
def Ordered : Nat → Nat → List Hunk → Prop
  | _, _, [] => True
  | done, made, hunk :: hunks =>
      done ≤ hunk.oldAt
      ∧ made ≤ hunk.newAt
      ∧ hunk.Counted
      ∧ Ordered (hunk.oldAt + hunk.oldCount) (hunk.newAt + hunk.newCount) hunks

example : patch (unified (text "a\nb\nc\n") (text "a\nB\nc") 3) (text "a\nb\nc\n") = none := by
  decide

end Gfs.Overlay.Diff
