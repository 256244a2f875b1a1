import Gfs.Service.Push
import Gfs.Types.Ancestry

/-! Whether a branch that can be created can be read back: the rule for new branches and pushes
(`is_valid_branch_name`) against the parser of selectors (`gfs-types/src/revision.rs`).
-/

namespace Gfs.Service

open Gfs.Types

/-- The ref of a branch. -/
def branchRef (name : Text) : Text :=
  "refs/heads/".toList ++ name

/-- What the rule for new branches says of a name. -/
structure IsBranchName (name : Text) : Prop where
  nonempty : name ≠ []
  fits : name.len ≤ 255
  noDash : name.head? ≠ some '-'
  noDot : name.getLast? ≠ some '.'
  noDots : name.hasPair '.' '.' = false
  noBrace : name.hasPair '@' '{' = false
  chars
    : ∀ c ∈ name, (c.toNat < 32 || c.toNat = 127 || " ~^:?*[\\".toList.contains c) = false
  parts : ∀ part ∈ name.splitOn '/', IsNamePart part

theorem isNamePart_iff {part : Text}
    : (part ≠ [] && part.head? ≠ some '.' && !".lock".toList.isSuffixOf part) = true
      ↔ IsNamePart part := by
  simp only [Bool.and_eq_true, decide_eq_true_eq, Bool.not_eq_true', IsNamePart, and_assoc,
    ← Bool.not_eq_true, List.isSuffixOf_iff_suffix]

/-- The rule accepts such names only. -/
theorem isBranchName_of_valid {name : Text} (valid : isValidBranchName name = true)
    : IsBranchName name := by
  simp only [isValidBranchName] at valid
  split at valid
  · cases valid
  rename_i sized
  split at valid
  · cases valid
  rename_i edges
  split at valid
  · cases valid
  rename_i dots
  split at valid
  · cases valid
  rename_i pairs
  split at valid
  · cases valid
  rename_i plain
  simp only [not_or] at sized edges dots
  simp only [Bool.or_eq_true, not_or, Bool.not_eq_true] at pairs
  refine ⟨sized.1, Nat.not_lt.mp sized.2, edges.1, dots.1, pairs.1.1, pairs.1.2, ?_, ?_⟩
  · intro c member
    rw [Bool.eq_false_iff]
    exact fun found => plain (List.any_eq_true.mpr ⟨c, member, found⟩)
  · intro part member
    exact isNamePart_iff.mp (List.all_eq_true.mp valid part member)

-- The ref of a branch

section Branch

variable {name : Text}

theorem branchRef_def (name : Text) : branchRef name = "refs/heads/".toList ++ name :=
  rfl

theorem branchRef_eq (name : Text) : branchRef name = "refs/heads".toList ++ '/' :: name :=
  rfl

theorem isNamePart_branchRef (branch : IsBranchName name)
    : ∀ part ∈ (branchRef name).splitOn '/', IsNamePart part := by
  have before : "refs/heads".toList = "refs".toList ++ '/' :: "heads".toList := by decide
  have refs : IsNamePart "refs".toList := isNamePart_iff.mp (by decide)
  have heads : IsNamePart "heads".toList := isNamePart_iff.mp (by decide)
  rw [branchRef_eq, Text.splitOn_slash, before, Text.splitOn_slash,
    Text.splitOn_component (by decide : '/' ∉ "refs".toList),
    Text.splitOn_component (by decide : '/' ∉ "heads".toList)]
  simp only [List.forall_mem_append, List.forall_mem_singleton]
  exact ⟨⟨refs, heads⟩, branch.parts⟩

theorem hasPair_branchRef {first second : Char} (notFirst : first ≠ '/') (notSecond : second ≠ '/')
    (before : Text.hasPair first second "refs/heads".toList = false)
    : (branchRef name).hasPair first second = name.hasPair first second := by
  rw [branchRef_eq, Text.hasPair_split notFirst.symm notSecond.symm, before, Bool.false_or]

theorem getLast?_branchRef (nonempty : name ≠ []) : (branchRef name).getLast? = name.getLast? := by
  rw [branchRef_def, List.getLast?_append, List.getLast?_eq_some_getLast nonempty, Option.some_or]

theorem noDots_branchRef (branch : IsBranchName name)
    : (branchRef name).hasPair '.' '.' = false := by
  rw [hasPair_branchRef (by decide) (by decide) (by decide), branch.noDots]

theorem forall_mem_branchRef {p : Char → Bool} (before : "refs/heads/".toList.all p = true)
    : (∀ c ∈ branchRef name, p c = true) ↔ ∀ c ∈ name, p c = true := by
  rw [branchRef_def, List.forall_mem_append]
  exact and_iff_right (List.all_eq_true.mp before)

/-- A branch the rule accepts is a valid ref. -/
theorem checkRefFormat_branchRef (branch : IsBranchName name)
    : checkRefFormat (branchRef name) = true := by
  have noBrace : (branchRef name).hasPair '@' '{' = false := by
    rw [hasPair_branchRef (by decide) (by decide) (by decide), branch.noBrace]
  have slash : '/' ∈ branchRef name := by
    rw [branchRef_eq]
    exact List.mem_append_right _ List.mem_cons_self
  have notAt : branchRef name ≠ ['@'] := by
    intro same
    rw [branchRef_eq] at same
    exact absurd (List.cons.inj same).1 (by decide)
  simp only [checkRefFormat, Bool.and_eq_true]
  refine ⟨⟨⟨⟨⟨⟨?_, ?_⟩, ?_⟩, ?_⟩, ?_⟩, ?_⟩, ?_⟩
  · rw [List.all_eq_true]
    exact fun part member => isNamePart_iff.mpr (isNamePart_branchRef branch part member)
  · exact List.contains_iff_mem.mpr slash
  · rw [noDots_branchRef branch]
    rfl
  · rw [List.all_eq_true, forall_mem_branchRef]
    · intro c member
      rw [branch.chars c member]
      rfl
    · decide
  · rw [getLast?_branchRef branch.nonempty]
    exact decide_eq_true branch.noDot
  · rw [noBrace]
    rfl
  · exact decide_eq_true notAt

-- Reading a branch back

/-- What selectors refuse in a name though Git and the rule for new branches allow it: an at sign,
a closing bracket, white space beyond the ASCII space, a control character beyond ASCII.
-/
def isUnreadable (c : Char) : Bool :=
  c = '@' || c = ']' || isWhitespace c || isControl c

theorem isNameChar_iff {c : Char}
    (allowed : (c.toNat < 32 || c.toNat = 127 || " ~^:?*[\\".toList.contains c) = false)
    : isNameChar c = true ↔ isUnreadable c = false := by
  simp only [Bool.or_eq_false_iff, decide_eq_false_iff_not] at allowed
  obtain ⟨⟨-, notDelete⟩, special⟩ := allowed
  have apart (d : Char) (member : d ∈ " ~^:?*[\\".toList) : c ≠ d := by
    rintro rfl
    rw [List.contains_iff_mem.mpr member] at special
    cases special
  have notDelete' : c ≠ '\x7f' := fun same => notDelete (by rw [same]; rfl)
  have plain : c ∉ ['~', '^', ':', '@'] ↔ c ≠ '@' := by
    simp [apart '~' (by decide), apart '^' (by decide), apart ':' (by decide)]
  have common : c ∉ ['?', '*', '[', ']', '\\', '\x7f'] ↔ c ≠ ']' := by
    simp [apart '?' (by decide), apart '*' (by decide), apart '[' (by decide),
      apart '\\' (by decide), notDelete']
  simp only [isNameChar, isUnreadable, plain, common, Bool.and_eq_true, Bool.or_eq_false_iff,
    decide_eq_true_eq, decide_eq_false_iff_not, Bool.not_eq_true']
  tauto

theorem isName_of_selects {algorithm : HashAlgorithm} {text ref : Text}
    (selects : Selects algorithm text (.fullRef ref)) : IsName text := by
  cases selects
  assumption

/-- The parser takes the ref of a branch for a full ref exactly when the ref is a well-formed
name.
-/
theorem parse_branchRef {algorithm : HashAlgorithm} (fits : name.len ≤ 255)
    : RevisionSelector.parse (branchRef name) algorithm = .ok (.fullRef (branchRef name))
      ↔ IsName (branchRef name) := by
  rw [parse_eq_ok]
  refine ⟨isName_of_selects, fun isName => .fullRef isName ?_ ?_ ?_⟩
  · exact (show "refs/".toList <+: "refs/heads/".toList by decide).trans (List.prefix_append _ _)
  · intro reserved
    have apart : ¬reservedRefPrefix <+: "refs/heads/".toList := by decide
    exact apart (List.prefix_of_prefix_length_le reserved (List.prefix_append _ _) (by decide))
  · have total : (branchRef name).len = Text.len "refs/heads/".toList + name.len :=
      Text.len_append _ _
    have before : Text.len "refs/heads/".toList = 11 := by decide
    rw [total, before, maxRevisionSelectorBytes]
    omega

theorem isName_branchRef (branch : IsBranchName name)
    : IsName (branchRef name) ↔ ∀ c ∈ name, isUnreadable c = false := by
  have chars
      : (∀ c ∈ branchRef name, isNameChar c = true) ↔ ∀ c ∈ name, isUnreadable c = false := by
    rw [forall_mem_branchRef (by decide)]
    exact forall₂_congr fun c member => isNameChar_iff (branch.chars c member)
  constructor
  · exact fun isName => chars.mp isName.chars
  · intro readable
    have noDash : (branchRef name).head? ≠ some '-' := by
      rw [branchRef_eq]
      exact fun same => absurd (Option.some.inj same) (by decide)
    refine ⟨chars.mpr readable, isNamePart_branchRef branch, noDash,
      noDots_branchRef branch, ?_⟩
    · rw [getLast?_branchRef branch.nonempty]
      exact branch.noDot

end Branch

/-- The ref of a branch that can be created or pushed is a valid ref. It is read back as a full ref
of the same name exactly when the branch holds no at sign, no closing bracket, no white space and
no control character.
-/
theorem branch_read_back_iff (algorithm : HashAlgorithm) (name : Text)
    (valid : isValidBranchName name = true)
    : (RevisionSelector.parse (branchRef name) algorithm = .ok (.fullRef (branchRef name))
        ∧ checkRefFormat (branchRef name) = true)
      ↔ ∀ c ∈ name, isUnreadable c = false := by
  have branch := isBranchName_of_valid valid
  rw [parse_branchRef branch.fits, isName_branchRef branch]
  exact and_iff_left (checkRefFormat_branchRef branch)

/-- Witness: a branch of two parts. -/
theorem feature_read_back
    : RevisionSelector.parse (branchRef "fix/a".toList) .sha1
        = .ok (.fullRef (branchRef "fix/a".toList))
      ∧ checkRefFormat (branchRef "fix/a".toList) = true :=
  have readable : "fix/a".toList.all (fun c => isUnreadable c = false) = true := by decide
  (branch_read_back_iff .sha1 "fix/a".toList (by decide)).mpr
    fun c member => of_decide_eq_true (List.all_eq_true.mp readable c member)

/-- A branch with an at sign can be pushed, and its ref is refused. -/
theorem at_sign_not_read_back
    : isValidBranchName "user@host".toList = true
      ∧ isPushable (workRefRoot "alice".toList) (branchRef "user@host".toList) = true
      ∧ RevisionSelector.parse (branchRef "user@host".toList) .sha1
        = .error (.unsupported (branchRef "user@host".toList)) := by
  refine ⟨by decide, by decide, by decide⟩

end Gfs.Service
