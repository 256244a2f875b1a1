import Gfs.Types.Path

/-! A byte-oriented path glob (`gfs-types/src/glob.rs`). The pattern as written is for messages
and left out.
-/

namespace Gfs.Types

inductive Token where
  | byte (want : UInt8)
  /-- `?` -/
  | anyByte
  /-- `*` -/
  | star
  /-- `**` -/
  | doubleStar
  | oneOf (negated : Bool) (ranges : List (UInt8 × UInt8))
  deriving DecidableEq, Repr

/-- A compiled glob. -/
structure Glob where
  tokens : List Token
  /-- The pattern has no interior slash, so it applies to the file name. -/
  nameOnly : Bool
  /-- The pattern ended in a slash, so it only matches directories and what is under them. -/
  directoryOnly : Bool
  deriving DecidableEq, Repr

-- Patterns

/-- The ranges of a class up to its closing bracket, with what follows it. -/
def classRanges : Bytes → Option (List (UInt8 × UInt8) × Bytes)
  | [] => none
  | low :: rest =>
      if low = 93 then some ([], rest)
      else
        match rest with
        | 45 :: high :: more =>
            if high = 93 then
              (classRanges (45 :: high :: more)).map
                (fun found => ((low, low) :: found.1, found.2))
            else (classRanges more).map (fun found => ((low, high) :: found.1, found.2))
        | rest => (classRanges rest).map (fun found => ((low, low) :: found.1, found.2))

/-- A class after its opening bracket: a bracket that closes it at once is a literal. -/
def parseClass (input : Bytes) : Option (Token × Bytes) :=
  let (negated, body) :=
    match input with
    | 33 :: rest => (true, rest)
    | 94 :: rest => (true, rest)
    | rest => (false, rest)
  match body with
  | 93 :: rest =>
      (classRanges rest).map (fun found => (.oneOf negated ((93, 93) :: found.1), found.2))
  | rest => (classRanges rest).map (fun found => (.oneOf negated found.1, found.2))

/-- The tokens of a pattern's body. Each takes a byte at least, so its length is fuel enough. -/
def tokensOf : Nat → Bytes → List Token
  | 0, _ => []
  | _, [] => []
  | fuel + 1, 92 :: byte :: rest => .byte byte :: tokensOf fuel rest
  | fuel + 1, 63 :: rest => .anyByte :: tokensOf fuel rest
  -- The separator after `**` is absorbed.
  | fuel + 1, 42 :: 42 :: 47 :: rest => .doubleStar :: tokensOf fuel rest
  | fuel + 1, 42 :: 42 :: rest => .doubleStar :: tokensOf fuel rest
  | fuel + 1, 42 :: rest => .star :: tokensOf fuel rest
  | fuel + 1, 91 :: rest =>
      match parseClass rest with
      | some (token, more) => token :: tokensOf fuel more
      | none => .byte 91 :: tokensOf fuel rest
  | fuel + 1, byte :: rest => .byte byte :: tokensOf fuel rest

namespace Glob

/-- Compile a pattern. Never fails. -/
def fromBytes (pattern : Bytes) : Glob :=
  let directoryOnly := pattern.getLast? = some slash
  let trimmed := if directoryOnly then pattern.dropLast else pattern
  let anchored := trimmed.head? = some slash
  let body := if anchored then trimmed.tail else trimmed
  {
    tokens := tokensOf body.length body
    nameOnly := !anchored && !body.contains slash
    directoryOnly
  }

-- Matching

/-- What `*` may leave of its input: every suffix up to the first slash. -/
def starRests : Bytes → List Bytes
  | [] => [[]]
  | byte :: rest => (byte :: rest) :: if byte = slash then [] else starRests rest

def matchesTokens : List Token → Bytes → Bool
  | [], input => input.isEmpty
  | .doubleStar :: tokens, input => input.tails.any (matchesTokens tokens)
  | .star :: tokens, input => (starRests input).any (matchesTokens tokens)
  | .anyByte :: tokens, byte :: input => byte ≠ slash && matchesTokens tokens input
  | .byte want :: tokens, byte :: input => byte = want && matchesTokens tokens input
  | .oneOf negated ranges :: tokens, byte :: input =>
      byte ≠ slash
      && ranges.any (fun range => range.1 ≤ byte && byte ≤ range.2) ≠ negated
      && matchesTokens tokens input
  | _ :: _, [] => false

/-- Whether a path matches. A name-only pattern is tested against every component; against the
interior ones only, where it is for directories.
-/
def matchesPath (glob : Glob) (path : Bytes) : Bool :=
  let components := path.splitOn slash
  if glob.nameOnly then
    if glob.directoryOnly then components.dropLast.any (matchesTokens glob.tokens)
    else components.any (matchesTokens glob.tokens)
  else if glob.directoryOnly then
    matchesTokens glob.tokens path
    || ((List.range path.length).filter (fun index => path[index]? = some slash)).any
        (fun index => matchesTokens glob.tokens (path.take index))
  else matchesTokens glob.tokens path

end Glob

end Gfs.Types
