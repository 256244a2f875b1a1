import Gfs.Search.Classify
import Gfs.Search.Postings
import Gfs.Types.Error
import Gfs.Types.Oid

/-! Query execution (`gfs-search/src/query.rs`), over the path table of a snapshot
(`manifest.rs`) and the lines of a blob (`lines.rs`). What the `regex` crates do, what reading
a blob yields and what the clock reads are parameters.
-/

namespace Gfs.Search.Index

open Gfs.Types
open Std (ExtTreeMap)

-- Manifests

/-- One searchable file in a snapshot, without its mode, which no query reads. -/
structure PathEntry where
  path : BytePath
  key : BlobKey
  deriving DecidableEq, Repr

/-- What a query reads of one commit's searchable contents, sorted by path bytes. -/
structure Manifest where
  commit : ObjectId
  paths : List PathEntry
  sorted : paths.Pairwise (fun a b => a.path < b.path)

namespace Manifest

variable (manifest : Manifest)

/-- The blob keys this snapshot contains. -/
def members : Bitmap :=
  (manifest.paths.map PathEntry.key).toFinset

/-- `slice::partition_point` of the path table. -/
def partitionPoint (before : PathEntry → Bool) : Nat :=
  (manifest.paths.takeWhile before).length

/-- The least byte string above every one that begins with `bytes`. -/
def upperBound (bytes : Bytes) : Option Bytes :=
  match bytes.reverse.dropWhile (· = 255) with
  | [] => none
  | b :: rest => some ((b + 1) :: rest).reverse

/-- A scope's path with a slash at its end. -/
def withSep (scope : Bytes) : Bytes :=
  if scope.getLast? = some slash then scope else scope ++ [slash]

/-- The half-open range of the path table covered by a path prefix. -/
def scope (scope : Bytes) : Nat × Nat :=
  if scope = [] then (0, manifest.paths.length)
  else
    let first := manifest.partitionPoint (fun e => e.path < withSep scope)
    let last :=
      match upperBound (withSep scope) with
      | some upper => manifest.partitionPoint (fun e => e.path < upper)
      | none => manifest.paths.length
    -- An exact path is also a legal scope.
    if first ≥ last then
      let exact := manifest.partitionPoint (fun e => e.path < scope)
      if (manifest.paths[exact]?.map PathEntry.path) = some scope then (exact, exact + 1)
      else (first, last)
    else (first, last)

/-- The entries a scope covers. -/
def inScope (scope : Bytes) : List PathEntry :=
  let range := manifest.scope scope
  (manifest.paths.take range.2).drop range.1

end Manifest

/-- What the registry knows of a blob. -/
structure BlobRecord where
  oid : ObjectId
  /-- `none` until the bytes have been examined. -/
  «class» : Option ContentClass
  /-- Whether posting lists exist for this key. -/
  indexed : Bool

-- Queries

/-- Per-query quotas. A duration is in nanoseconds. -/
structure Budget where
  maxResults : Nat
  maxTime : Nat
  maxBytesRead : Nat
  maxCandidates : Nat
  maxRegexBytes : Nat
  maxLineBytes : Nat
  maxDisplayBytes : Nat
  deriving DecidableEq, Repr

def Budget.default : Budget where
  maxResults := 1000
  maxTime := 10 * 1000000000
  maxBytesRead := 512 * 1024 * 1024
  maxCandidates := 200000
  maxRegexBytes := 16 * 1024 * 1024
  maxLineBytes := 8 * 1024
  maxDisplayBytes := 64 * 1024 * 1024

/-- A query. The pattern is the bytes of a string. -/
structure Query where
  pattern : Bytes
  literal : Bool
  caseInsensitive : Bool
  /-- A path prefix; empty for the whole snapshot. -/
  scope : Bytes
  includeGlobs : List Glob
  excludeGlobs : List Glob
  contextBefore : Nat
  contextAfter : Nat
  /-- Resume after this path. -/
  startAfterPath : Option BytePath
  budget : Budget

/-- Whether a path passes the globs. -/
def Query.passes (query : Query) (path : BytePath) : Bool :=
  (query.includeGlobs.isEmpty || query.includeGlobs.any (·.matchesPath path))
  && !query.excludeGlobs.any (·.matchesPath path)

/-- Whether a path is behind the cursor. -/
def Query.isAhead (query : Query) (path : BytePath) : Bool :=
  match query.startAfterPath with
  | none => true
  | some after => !decide (path ≤ after)

/-- Where a match begins and ends in a line. -/
structure Span where
  start : Nat
  stop : Nat
  deriving DecidableEq, Repr

/-- `Regex::find_iter`. -/
abbrev Matcher := Bytes → List Span

/-- The `regex` and `regex_syntax` crates. -/
structure Engine where
  parse : Bytes → Option Hir
  escape : Bytes → Bytes
  /-- A pattern, whether case is ignored, and the size limit. -/
  compile : Bytes → Bool → Nat → Except Text Matcher

/-- Compile a query's pattern. -/
def buildMatcher (engine : Engine) (query : Query) : Except GfsError Matcher :=
  let pattern := if query.literal then engine.escape query.pattern else query.pattern
  match engine.compile pattern query.caseInsensitive query.budget.maxRegexBytes with
  | .ok matcher => .ok matcher
  | .error e =>
      .error ⟨.invalidArgument, "the pattern could not be compiled: ".toList ++ e⟩

-- Lines

def newline : UInt8 := 10

/-- One line of a blob, without its newline. -/
structure Line where
  number : Nat
  bytes : Bytes
  deriving DecidableEq, Repr

/-- The bytes to show a human, with a CRLF's `\r` removed. -/
def Line.display (line : Line) : Bytes :=
  if line.bytes.getLast? = some 13 then line.bytes.dropLast else line.bytes

/-- The 1-based column of an offset in the line. -/
def Line.column (_ : Line) (offset : Nat) : Nat :=
  offset + 1

/-- The lines from `number` on, where `seen` is the current one so far. -/
def linesFrom (number : Nat) (seen : Bytes) : Bytes → List Line
  | [] => if seen = [] then [] else [⟨number, seen⟩]
  | b :: rest =>
      if b = newline then ⟨number, seen⟩ :: linesFrom (number + 1) [] rest
      else linesFrom number (seen ++ [b]) rest

/-- A blob's lines. -/
def lines (content : Bytes) : List Line :=
  linesFrom 1 [] content

-- Matches in one blob

/-- A byte inside a UTF-8 sequence. -/
def isContinuation (b : UInt8) : Bool :=
  b &&& 0xC0 = 0x80

/-- Walk back to the start of a UTF-8 sequence, but not below `floor`. -/
def walkBack (text : Bytes) (floor : Nat) : Nat → Nat
  | 0 => 0
  | stop + 1 =>
      if stop + 1 > floor && text[stop + 1]?.any isContinuation then walkBack text floor stop
      else stop + 1

/-- The largest cut at or below `limit` that does not split a UTF-8 sequence. -/
def utf8SafeCut (line : Bytes) (limit : Nat) : Nat :=
  if line.length ≤ limit then line.length else walkBack line (limit - 3) limit

/-- How much line text a query may still retain. -/
structure DisplayBudget where
  perLine : Nat
  remaining : Nat
  exhausted : Bool
  deriving DecidableEq, Repr

namespace DisplayBudget

def new (budget : Budget) : DisplayBudget where
  perLine := budget.maxLineBytes
  remaining := budget.maxDisplayBytes
  exhausted := false

/-- A budget after a line of `kept` bytes. -/
def spend (display : DisplayBudget) (kept : Nat) : DisplayBudget where
  perLine := display.perLine
  remaining := display.remaining - kept
  exhausted := display.exhausted || decide (kept ≥ display.remaining)

/-- One line, cut to the per-line cap and charged to the running total. -/
def take (display : DisplayBudget) (line : Bytes) : (Bytes × Bool) × DisplayBudget :=
  let kept := line.take (utf8SafeCut line display.perLine)
  ((kept, decide (kept.length < line.length)), display.spend kept.length)

/-- A list of lines, each taken in turn. -/
def takeAll (display : DisplayBudget) : List Bytes → List (Bytes × Bool) × DisplayBudget
  | [] => ([], display)
  | line :: rest =>
      let (kept, display) := display.take line
      let (others, display) := takeAll display rest
      (kept :: others, display)

end DisplayBudget

structure LineHit where
  line : Nat
  column : Nat
  matched : Bytes
  lineText : Bytes
  before : List Bytes
  after : List Bytes
  lineTruncated : Bool
  deriving DecidableEq, Repr

/-- One match in a blob: the index of its line, the line, and its span. -/
structure Occurrence where
  index : Nat
  line : Line
  span : Span

/-- Every match in the lines of a blob. -/
def occurrences (matcher : Matcher) (all : List Line) : List Occurrence :=
  all.zipIdx.flatMap (fun (line, index) => (matcher line.bytes).map (⟨index, line, ·⟩))

/-- What of the blob a match carries: its context before and after, its line and itself. -/
def carried (query : Query) (all : List Line) (found : Occurrence) : List Bytes :=
  ((all.take found.index).drop (found.index - query.contextBefore)).map Line.display
  ++ ((all.take (found.index + 1 + query.contextAfter)).drop (found.index + 1)).map Line.display
  ++ [found.line.display, (found.line.bytes.take found.span.stop).drop found.span.start]

/-- A match, with what it carries cut and charged. -/
def hit (query : Query) (all : List Line) (display : DisplayBudget) (found : Occurrence)
    : LineHit × DisplayBudget :=
  let before := ((all.take found.index).drop (found.index - query.contextBefore)).length
  let after :=
    ((all.take (found.index + 1 + query.contextAfter)).drop (found.index + 1)).length
  let (taken, display) := display.takeAll (carried query all found)
  let texts := taken.map Prod.fst
  ({
      line := found.line.number
      column := found.line.column found.span.start
      matched := (texts[before + after + 1]?).getD []
      lineText := (texts[before + after]?).getD []
      before := texts.take before
      after := (texts.drop before).take after
      lineTruncated := taken.any Prod.snd
    },
    display)

/-- The loop of `findInBlob` over the matches, with `room` left under the limit. -/
def collect (query : Query) (all : List Line)
    : Nat → DisplayBudget → List Occurrence → List LineHit × DisplayBudget
  | _, display, [] => ([], display)
  | 0, display, _ => ([], display)
  | room + 1, display, found :: rest =>
      if display.exhausted then ([], display)
      else
        let (first, display) := hit query all display found
        let (others, display) := collect query all room display rest
        (first :: others, display)

/-- Every match in one blob, one per occurrence, up to `limit`. -/
def findInBlob (matcher : Matcher) (content : Bytes) (query : Query) (limit : Nat)
    (display : DisplayBudget)
    : List LineHit × DisplayBudget :=
  collect query (lines content) limit display (occurrences matcher (lines content))

-- The answer

inductive ExecutionStatus where
  | complete
  | truncated
  deriving DecidableEq, Repr

/-- Why a query did not finish. -/
inductive TruncationReason where
  | resultLimit
  | timeBudget
  | bytesBudget
  | candidateBudget
  | displayBudget
  /-- The pattern had no literal the index could bound it with. -/
  | noRequiredLiteral
  /-- A backend read failed partway through. -/
  | backendFailure
  deriving DecidableEq, Repr

/-- What was outside the searchable corpus, within the requested scope. -/
structure Coverage where
  scope : Bytes
  eligiblePaths : Nat
  excluded : ExtTreeMap Text Nat compare
  declaredExclusions : List Text

def Coverage.record (coverage : Coverage) (reason : ExclusionReason) : Coverage :=
  {
    coverage with
    excluded :=
      coverage.excluded.insert reason.asStr ((coverage.excluded[reason.asStr]?).getD 0 + 1)
  }

structure Completion where
  executionStatus : ExecutionStatus
  truncation : Option TruncationReason
  coverage : Coverage
  indexGeneration : Nat
  commit : Text
  stopBudget : Option Text
  candidatesConsidered : Nat
  bytesRead : Nat
  elapsedMs : Nat

/-- One match, at one path. -/
structure Match where
  path : BytePath
  line : Nat
  column : Nat
  matched : Bytes
  lineText : Bytes
  before : List Bytes
  after : List Bytes
  lineTruncated : Bool
  blobOid : Text
  deriving DecidableEq, Repr

structure SearchResult where
  «matches» : List Match
  completion : Completion

def describeBudget (reason : TruncationReason) (budget : Budget) : Text :=
  let number := fun n => Nat.toDigits 10 n
  match reason with
  | .resultLimit => "max_results=".toList ++ number budget.maxResults
  | .timeBudget => "max_time_ms=".toList ++ number (budget.maxTime / 1000000)
  | .bytesBudget => "max_bytes_read=".toList ++ number budget.maxBytesRead
  | .candidateBudget => "max_candidates=".toList ++ number budget.maxCandidates
  | .displayBudget =>
      "max_display_bytes=".toList ++ number budget.maxDisplayBytes
        ++ " (line text retained, at max_line_bytes=".toList ++ number budget.maxLineBytes
        ++ " per line)".toList
  | .noRequiredLiteral =>
      ("the pattern has no literal of three or more bytes that every match must "
        ++ "contain, so the query was bounded by a scan budget rather than by the index").toList
  | .backendFailure => "a backend read failed".toList

/-- Record the first thing that bounded the query. -/
def note (slot : Option TruncationReason) (reason : TruncationReason)
    : Option TruncationReason :=
  slot <|> some reason

-- Search

/-- Everything a query reads. -/
structure SearchInputs where
  manifest : Manifest
  postings : PostingStore
  policy : CorpusPolicy
  indexGeneration : Nat
  records : BlobKey → Option BlobRecord
  /-- What reading a blob yields. -/
  read : ObjectId → Except GfsError Bytes
  /-- The time since the start at each reading of the clock. -/
  elapsed : Nat → Nat

/-- Why a path in scope is not searched, if it is not. -/
def SearchInputs.exclusion (inputs : SearchInputs) (entry : PathEntry)
    : Option ExclusionReason :=
  match inputs.records entry.key with
  | none => some .indexGap
  | some record =>
      match record.class with
      | none => some .indexGap
      | some content =>
          inputs.policy.excludes content (inputs.policy.classifyPath entry.path)
          <|> (if record.indexed then none else some .indexGap)

/-- The paths in the question: in scope, and passing the globs. -/
def SearchInputs.asked (inputs : SearchInputs) (query : Query) : List PathEntry :=
  (inputs.manifest.inScope query.scope).filter (fun entry => query.passes entry.path)

/-- The paths that are searched. -/
def SearchInputs.eligible (inputs : SearchInputs) (query : Query) : List PathEntry :=
  (inputs.asked query).filter (fun entry => inputs.exclusion entry = none)

/-- The state of the candidate loop. -/
structure Scan where
  perBlob : ExtTreeMap BlobKey (List LineHit) compare
  examined : List BlobKey
  bytesRead : Nat
  considered : Nat
  potential : Nat
  stoppedEarly : Bool
  truncation : Option TruncationReason
  coverage : Coverage
  display : DisplayBudget

section Search

variable (inputs : SearchInputs) (query : Query)

/-- The coverage after the paths of the question are classified. -/
def classified : Coverage :=
  let initial : Coverage :=
    {
      scope := query.scope
      eligiblePaths := (inputs.eligible query).length
      excluded := ∅
      declaredExclusions := inputs.policy.declaredExclusions.map ExclusionReason.asStr
    }
  (inputs.asked query).foldl
    (fun coverage entry =>
      match inputs.exclusion entry with
      | some reason => coverage.record reason
      | none => coverage)
    initial

variable (matcher : Matcher) (candidates : Option Bitmap)

/-- A budget that stops the loop before the next candidate. -/
def stopReason (scan : Scan) : Option TruncationReason :=
  if scan.display.exhausted then some .displayBudget
  else if inputs.elapsed scan.considered > query.budget.maxTime then some .timeBudget
  else if scan.bytesRead > query.budget.maxBytesRead then some .bytesBudget
  else if scan.considered ≥ query.budget.maxCandidates then some .candidateBudget
  else none

/-- Read one candidate blob: whether the loop goes on, and with what. -/
def readBlob (scan : Scan) (key : BlobKey) : Bool × Scan :=
  let scan := { scan with examined := key :: scan.examined }
  match stopReason inputs query scan with
  | some reason => (false, { scan with truncation := note scan.truncation reason })
  | none =>
      let scan := { scan with considered := scan.considered + 1 }
      match inputs.records key with
      | none => (true, scan)
      | some record =>
          match inputs.read record.oid with
          | .error e =>
              -- The object vanished: a coverage gap.
              if e.code = .notFound then
                (true, { scan with coverage := scan.coverage.record .indexGap })
              else (false, { scan with truncation := note scan.truncation .backendFailure })
          | .ok content =>
              let (hits, display) :=
                findInBlob matcher content query (query.budget.maxResults + 1) scan.display
              let scan := { scan with bytesRead := scan.bytesRead + content.length, display }
              if hits.isEmpty then (true, scan)
              else
                let paths := (inputs.eligible query).countP (fun e => e.key = key)
                let scan :=
                  {
                    scan with
                    potential := scan.potential + hits.length * paths
                    perBlob := scan.perBlob.insert key hits
                  }
                if scan.potential > query.budget.maxResults then
                  (false, { scan with stoppedEarly := true })
                else (true, scan)

/-- One eligible path of the candidate loop. -/
def visit (scan : Scan) (entry : PathEntry) : Bool × Scan :=
  if candidates.any (fun keys => entry.key ∉ keys) then (true, scan)
  else if entry.key ∈ scan.examined then (true, scan)
  else readBlob inputs query matcher scan entry.key

/-- The candidate loop. -/
def examine (scan : Scan) : List PathEntry → Scan
  | [] => scan
  | entry :: rest =>
      match visit inputs query matcher candidates scan entry with
      | (true, next) => examine next rest
      | (false, last) => last

/-- A match at a path that carries its blob. -/
def matchAt (oid : Text) (path : BytePath) (found : LineHit) : Match where
  path := path
  line := found.line
  column := found.column
  matched := found.matched
  lineText := found.lineText
  before := found.before
  after := found.after
  lineTruncated := found.lineTruncated
  blobOid := oid

/-- The object id a key's record names. -/
def SearchInputs.oidOf (key : BlobKey) : Text :=
  ((inputs.records key).map (fun record => record.oid.toQualified)).getD []

/-- The matches of the blobs that were read, in path order from the cursor. -/
def found (scan : Scan) : List Match :=
  ((inputs.eligible query).filter (fun entry => query.isAhead entry.path)).flatMap
    (fun entry =>
      ((scan.perBlob[entry.key]?).getD []).map
        (matchAt (inputs.oidOf entry.key) entry.path))

/-- The emit loop: the page so far, and whether the page was full with a match left. -/
def emit (page : List Match) : List Match → List Match × Bool
  | [] => (page, false)
  | next :: rest =>
      if page.length ≥ query.budget.maxResults then (page, true) else emit (page ++ [next]) rest

/-- The candidate loop from its start. -/
def scanned (literals : Option (List Bytes)) : Scan :=
  let candidates :=
    literals.map
      (fun found => inputs.postings.candidates found inputs.manifest.members query.caseInsensitive)
  let initial : Scan :=
    {
      perBlob := ∅
      examined := []
      bytesRead := 0
      considered := 0
      potential := 0
      stoppedEarly := false
      truncation := if literals.isNone then some .noRequiredLiteral else none
      coverage := classified inputs query
      display := .new query.budget
    }
  examine inputs query matcher candidates initial (inputs.eligible query)

/-- Run one query against one snapshot. -/
def search (engine : Engine) : Except GfsError SearchResult :=
  match buildMatcher engine query with
  | .error e => .error e
  | .ok matcher =>
      let literals :=
        requiredLiterals engine.parse query.pattern query.literal query.caseInsensitive
      let scan := scanned inputs query matcher literals
      let (page, full) := emit query [] (found inputs query scan)
      let truncation := if full then note scan.truncation .resultLimit else scan.truncation
      let truncation :=
        if scan.display.exhausted then note truncation .displayBudget else truncation
      let truncation := if scan.stoppedEarly then note truncation .resultLimit else truncation
      .ok
        {
          «matches» := page
          completion :=
            {
              executionStatus := if truncation.isSome then .truncated else .complete
              truncation
              coverage := scan.coverage
              indexGeneration := inputs.indexGeneration
              commit := inputs.manifest.commit.toQualified
              stopBudget := truncation.map (fun reason => describeBudget reason query.budget)
              candidatesConsidered := scan.considered
              bytesRead := scan.bytesRead
              elapsedMs := inputs.elapsed (scan.considered + 1) / 1000000
            }
        }

end Search

end Gfs.Search.Index
