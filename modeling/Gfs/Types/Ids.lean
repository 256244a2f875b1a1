import Gfs.Types.Error

/-! Identifiers (`gfs-types/src/ids.rs`): a value of one of these types was accepted by its
parser.
-/

namespace Gfs.Types

def maxRepositoryIdBytes : Nat := 128
def maxMountIdBytes : Nat := 64
def maxSubjectIdBytes : Nat := 512

/-- `char::is_control`. -/
def isControl (c : Char) : Bool :=
  c.toNat < 32 || (127 ≤ c.toNat && c.toNat < 160)

/-- The checks `RepositoryId::parse` makes. -/
def checkRepositoryId (text : Text) : Except GfsError Unit :=
  if text = [] ∨ text.len > maxRepositoryIdBytes then
    .error (.invalid "repository id must be 1..=128 characters")
  else if text.head? = some '.' then .error (.invalid "repository id may not start with `.`")
  else if text.hasPair '.' '.' then .error (.invalid "repository id may not contain `..`")
  else if !text.all (fun c => c.isAlphanum || c = '.' || c = '_' || c = '-') then
    .error (.invalid "repository id may contain only letters, digits, `.`, `_`, and `-`")
  else .ok ()

/-- A repository identifier. -/
abbrev RepositoryId := { text : Text // checkRepositoryId text = .ok () }

/-- The checks `SubjectId::parse` makes. -/
def checkSubjectId (text : Text) : Except GfsError Unit :=
  if text = [] ∨ text.len > maxSubjectIdBytes then
    .error (.invalid "subject id must be 1..=512 characters")
  else if text.any isControl then
    .error (.invalid "subject id may not contain control characters")
  else .ok ()

/-- An authenticated principal: a user, a workload identity, or a job. -/
abbrev SubjectId := { text : Text // checkSubjectId text = .ok () }

/-- The checks `MountId::parse` makes. -/
def checkMountId (text : Text) : Except GfsError Unit :=
  if text = [] ∨ text.len > maxMountIdBytes then
    .error (.invalid "mount id must be 1..=64 characters")
  else if !text.all (fun c => c.isAlphanum || c = '-') then
    .error (.invalid "mount id may contain only letters, digits, and `-`")
  else .ok ()

/-- A mount identifier, part of a lease anchor's ref name. -/
abbrev MountId := { text : Text // checkMountId text = .ok () }

/-- Parse a text into a value that carries its own check. -/
def parseChecked (check : Text → Except GfsError Unit) (text : Text)
    : Except GfsError { text : Text // check text = .ok () } :=
  match checked : check text with
  | .ok () => .ok ⟨text, checked⟩
  | .error refusal => .error refusal

theorem parseChecked_val {check : Text → Except GfsError Unit}
    (value : { text : Text // check text = .ok () })
    : parseChecked check value.1 = .ok value := by
  obtain ⟨text, accepted⟩ := value
  rw [parseChecked]
  split
  · rfl
  · rename_i refused
    rw [accepted] at refused
    cases refused

theorem val_of_parseChecked {check : Text → Except GfsError Unit} {text : Text}
    {value : { text : Text // check text = .ok () }}
    (parsed : parseChecked check text = .ok value)
    : value.1 = text := by
  rw [parseChecked] at parsed
  split at parsed
  · cases parsed
    rfl
  · cases parsed

-- Lengths

theorem RepositoryId.len_le (id : RepositoryId) : Text.len id.1 ≤ maxRepositoryIdBytes := by
  obtain ⟨text, accepted⟩ := id
  by_contra long
  rw [checkRepositoryId, if_pos (.inr (by simpa using long))] at accepted
  cases accepted

theorem SubjectId.len_le (id : SubjectId) : Text.len id.1 ≤ maxSubjectIdBytes := by
  obtain ⟨text, accepted⟩ := id
  by_contra long
  rw [checkSubjectId, if_pos (.inr (by simpa using long))] at accepted
  cases accepted

theorem MountId.len_le (id : MountId) : Text.len id.1 ≤ maxMountIdBytes := by
  obtain ⟨text, accepted⟩ := id
  by_contra long
  rw [checkMountId, if_pos (.inr (by simpa using long))] at accepted
  cases accepted

end Gfs.Types
