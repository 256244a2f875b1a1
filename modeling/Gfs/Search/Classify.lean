import Gfs.Types.Glob
import Gfs.Types.Text

/-! The searchable-corpus policy (`gfs-search/src/classify.rs`). -/

namespace Gfs.Search.Index

open Gfs.Types

/-- What a blob's bytes are. -/
inductive ContentClass where
  /-- Searchable text. -/
  | text
  /-- A NUL byte in the probe window. -/
  | binary
  | oversized
  | invalidUtf8
  /-- An LFS pointer, as the walker says. -/
  | lfs
  deriving DecidableEq, Repr

/-- What a path is, independent of its bytes. -/
inductive PathClass where
  | ordinary
  | generated
  | vendored
  deriving DecidableEq, Repr

/-- Why a path is not in the searchable corpus. -/
inductive ExclusionReason where
  | binary
  | oversized
  | invalidUtf8
  | generated
  | vendored
  | lfs
  /-- The index has no answer for this path. -/
  | indexGap
  deriving DecidableEq, Repr

def ExclusionReason.asStr : ExclusionReason → Text
  | .binary => "binary".toList
  | .oversized => "oversized".toList
  | .invalidUtf8 => "invalid_utf8".toList
  | .generated => "generated".toList
  | .vendored => "vendored".toList
  | .lfs => "lfs".toList
  | .indexGap => "index_gap".toList

/-- The bytes of an ASCII string. -/
def ascii (text : String) : Bytes :=
  text.toList.map (fun c => UInt8.ofNat c.toNat)

/-- The declared corpus policy. -/
structure CorpusPolicy where
  maxBlobBytes : Nat
  binaryProbeBytes : Nat
  excludeBinary : Bool
  excludeOversized : Bool
  excludeInvalidUtf8 : Bool
  excludeGenerated : Bool
  excludeVendored : Bool
  generated : List Glob
  vendored : List Glob

namespace CorpusPolicy

/-- Path patterns that mark machine-produced content. -/
def generatedPatterns : List String :=
  ["*.min.js", "*.min.css", "*.map", "*_pb2.py", "*_pb.go", "*.pb.go", "*.pb.cc", "*.pb.h",
    "Cargo.lock", "package-lock.json", "yarn.lock", "pnpm-lock.yaml", "go.sum"]

/-- Path patterns that mark third-party code checked into the tree. -/
def vendoredPatterns : List String :=
  ["vendor/", "vendored/", "third_party/", "thirdparty/", "node_modules/", "external/"]

def default : CorpusPolicy where
  maxBlobBytes := 8 * 1024 * 1024
  binaryProbeBytes := 8192
  excludeBinary := true
  excludeOversized := true
  excludeInvalidUtf8 := false
  excludeGenerated := false
  excludeVendored := false
  generated := generatedPatterns.map (fun pattern => .fromBytes (ascii pattern))
  vendored := vendoredPatterns.map (fun pattern => .fromBytes (ascii pattern))

variable (policy : CorpusPolicy)

/-- Whether a content class is excluded by this policy. -/
def excludesContent : ContentClass → Option ExclusionReason
  | .text => none
  | .binary => if policy.excludeBinary then some .binary else none
  | .oversized => if policy.excludeOversized then some .oversized else none
  | .invalidUtf8 => if policy.excludeInvalidUtf8 then some .invalidUtf8 else none
  | .lfs => some .lfs

def excludesPath : PathClass → Option ExclusionReason
  | .ordinary => none
  | .generated => if policy.excludeGenerated then some .generated else none
  | .vendored => if policy.excludeVendored then some .vendored else none

/-- The single verdict for a path with known content. -/
def excludes (content : ContentClass) (path : PathClass) : Option ExclusionReason :=
  policy.excludesContent content <|> policy.excludesPath path

/-- Every exclusion this policy performs, for the coverage declaration. -/
def declaredExclusions : List ExclusionReason :=
  (if policy.excludeBinary then [.binary] else [])
  ++ (if policy.excludeOversized then [.oversized] else [])
  ++ (if policy.excludeInvalidUtf8 then [.invalidUtf8] else [])
  ++ (if policy.excludeGenerated then [.generated] else [])
  ++ (if policy.excludeVendored then [.vendored] else [])
  ++ [.lfs]

/-- Classify a path. -/
def classifyPath (path : BytePath) : PathClass :=
  if policy.vendored.any (·.matchesPath path) then .vendored
  else if policy.generated.any (·.matchesPath path) then .generated
  else .ordinary

end CorpusPolicy

end Gfs.Search.Index
