import Gfs.Types.Text

/-! The service's errors (`gfs-types/src/error.rs`). -/

namespace Gfs.Types

inductive ErrorCode where
  | invalidArgument
  | notFound
  | permissionDenied
  | unauthenticated
  | expired
  | failedPrecondition
  | conflict
  | resourceLimit
  | snapshotBuilding
  | notIndexable
  | unsupportedRepositoryFormat
  | reservedNamespace
  | unavailable
  | deadlineExceeded
  | cancelled
  | internal
  deriving DecidableEq, Repr

def ErrorCode.httpStatus : ErrorCode → Nat
  | invalidArgument | reservedNamespace => 400
  | unauthenticated | expired => 401
  | permissionDenied => 403
  | notFound => 404
  | conflict => 409
  | failedPrecondition | notIndexable | unsupportedRepositoryFormat => 422
  | resourceLimit => 429
  | internal => 500
  | unavailable | snapshotBuilding => 503
  | deadlineExceeded => 504
  | cancelled => 499

structure GfsError where
  code : ErrorCode
  message : Text
  deriving DecidableEq, Repr

/-- A malformed request. -/
def GfsError.invalid (message : String) : GfsError :=
  ⟨.invalidArgument, message.toList⟩

theorem bind_eq_ok {ε α β : Type} {first : Except ε α} {next : α → Except ε β} {value : β}
    : (first >>= next) = .ok value ↔ ∃ middle, first = .ok middle ∧ next middle = .ok value := by
  cases first with
  | error refusal =>
      constructor
      · intro run
        cases run
      · rintro ⟨_, run, _⟩
        cases run
  | ok middle =>
      constructor
      · exact fun run => ⟨middle, rfl, run⟩
      · rintro ⟨_, run, rest⟩
        cases run
        exact rest

end Gfs.Types
