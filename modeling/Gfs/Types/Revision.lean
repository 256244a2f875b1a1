import Gfs.Types.Text

/-! Ref names and the reserved namespace (`gfs-types/src/revision.rs`). -/

namespace Gfs.Types

/-- The reserved internal reachability namespace. -/
def reservedRefPrefix : Text := "refs/gfs/".toList

/-- Whether a ref name belongs to the reserved internal namespace. -/
def isReservedRef (name : Text) : Bool :=
  reservedRefPrefix.isPrefixOf name

/-- Whether a user-supplied branch name can safely become a ref. -/
def isValidBranchName (name : Text) : Bool :=
  if name = [] ∨ name.len > 255 then false
  else if name.head? = some '-' ∨ name.head? = some '/' ∨ name.getLast? = some '/' then false
  else if name.getLast? = some '.' ∨ name = ['@'] then false
  else if name.hasPair '.' '.' || name.hasPair '@' '{' || name.hasPair '/' '/' then false
  else if name.any (fun c => c.toNat < 32 || c.toNat = 127 || " ~^:?*[\\".toList.contains c) then
    false
  else
    (name.splitOn '/').all (fun part =>
      part ≠ [] && part.head? ≠ some '.' && !".lock".toList.isSuffixOf part)

/-- A character a subject's part of a ref keeps. -/
def isRefSafe (c : Char) : Bool :=
  c.isAlphanum || c = '.' || c = '-' || c = '_'

/-- Fold a subject to ref-safe characters: every run of other characters becomes one
underscore. The flag says whether the last character was folded.
-/
def foldSubject : Bool → Text → Text
  | _, [] => []
  | lastWasSep, c :: rest =>
      if isRefSafe c then c :: foldSubject false rest
      else if lastWasSep then foldSubject true rest
      else '_' :: foldSubject true rest

/-- The owner a folded subject names: without outer underscores and then dots, and never
empty.
-/
def ownerOf (folded : Text) : Text :=
  let trimmed := (folded.trimMatches '_').trimMatches '.'
  if trimmed = [] then "anonymous".toList else trimmed

/-- The root of one subject's work-branch namespace, without a trailing slash. -/
def workRefRoot (subject : Text) : Text :=
  reservedRefPrefix ++ "work/".toList ++ ownerOf (foldSubject false subject)

/-- The ref an unpushed branch lives on. -/
def workRef (subject branch : Text) : Text :=
  workRefRoot subject ++ '/' :: branch

/-- The lease anchor ref name for a mount. -/
def leaseAnchorRef (mountId : Text) : Text :=
  reservedRefPrefix ++ "mounts/".toList ++ mountId

theorem isReservedRef_iff {name : Text}
    : isReservedRef name = true ↔ reservedRefPrefix <+: name :=
  List.isPrefixOf_iff_prefix

end Gfs.Types
