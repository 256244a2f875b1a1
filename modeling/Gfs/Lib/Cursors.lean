import Mathlib

/-! Listings in pages: each call gives some items and a token to go on from, or no token at the
end. A call is a relation, so that what a page holds may be read off a record.
-/

namespace Gfs.Lib.Cursors

variable {τ β : Type*}

/-- The pages of a listing from a call and a token on, up to the first without a token. -/
inductive Followed (call : Nat → Option τ → List β → Option τ → Prop)
    : Nat → Option τ → List (List β) → Prop where
  | last {i : Nat} {after : Option τ} {page : List β} (called : call i after page none)
      : Followed call i after [page]
  | more {i : Nat} {after : Option τ} {page : List β} {token : τ} {pages : List (List β)}
      (called : call i after page (some token)) (rest : Followed call (i + 1) (some token) pages)
      : Followed call i after (page :: pages)

/-- One call lists some of what its token leaves to be listed: all of it where it is the last, and
else no less than one item.
-/
def Advances (remaining : Option τ → List β) (after : Option τ) (page : List β)
    (next : Option τ)
    : Prop :=
  match next with
  | none => page = remaining after
  | some token => page ++ remaining (some token) = remaining after ∧ page ≠ []

/-- Where every call that is made advances, the pages end and make up what there was to list, by
induction on how much that is.
-/
theorem exists_followed {call : Nat → Option τ → List β → Option τ → Prop}
    (remaining : Option τ → List β) (Made : Nat → Option τ → Prop)
    (step
      : ∀ i after, Made i after →
          ∃ page next,
            call i after page next
            ∧ Advances remaining after page next
            ∧ ∀ token, next = some token → Made (i + 1) (some token))
    {i : Nat} {after : Option τ} (made : Made i after)
    : ∃ pages, Followed call i after pages ∧ pages.flatten = remaining after := by
  induction size : (remaining after).length using Nat.strong_induction_on generalizing i after with
  | h size_ ih =>
      obtain ⟨page, next, called, advances, goesOn⟩ := step i after made
      cases next with
      | none =>
          exact ⟨[page], .last called, by rw [List.flatten_singleton, show page = _ from advances]⟩
      | some token =>
          obtain ⟨whole, some_⟩ := advances
          have shorter : (remaining (some token)).length < size_ := by
            have count := congrArg List.length whole
            rw [List.length_append] at count
            have := List.length_pos_iff.mpr some_
            omega
          obtain ⟨pages, followed, rest⟩ := ih _ shorter (goesOn token rfl) rfl
          exact ⟨page :: pages, .more called followed, by rw [List.flatten_cons, rest, whole]⟩

end Gfs.Lib.Cursors
