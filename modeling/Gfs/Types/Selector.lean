import Gfs.Types.Oid
import Gfs.Types.Revision
import Gfs.Types.Ids
import Gfs.Types.Signed

/-! Revision selectors (`gfs-types/src/revision.rs`): the checks of a caller's string, and the
closed grammar that they accept.
-/

namespace Gfs.Types

def maxRevisionSelectorBytes : Nat := 512
def maxAncestryDistance : Nat := 4096
def minAbbrevHex : Nat := 7

/-- Why a revision is refused. -/
inductive RevisionRefusal where
  | empty
  | exceedsBytes
  | expressionExceedsBytes
  | oid (error : OidError)
  | otherAlgorithm (given repository : HashAlgorithm)
  | longHex (algorithm : HashAlgorithm)
  | reserved
  | unsupported (input : Text)
  | leadingDash
  | outerDot
  | malformed (input : Text)
  | justRefs
  | pseudoRef (input : Text)
  | noBase (input suffix : Text)
  | badCount (digits : Text)
  | tooFar
  deriving DecidableEq, Repr

namespace RevisionRefusal

def code : RevisionRefusal → ErrorCode
  | .reserved => .reservedNamespace
  | .tooFar => .resourceLimit
  | _ => .invalidArgument

/-- The text of a refusal, where `quoted` is how a string is shown for debugging. -/
def message (quoted : Text → Text) : RevisionRefusal → Text
  | .empty => "revision selector is empty".toList
  | .exceedsBytes =>
      "revision selector exceeds ".toList ++ Nat.toDigits 10 maxRevisionSelectorBytes
      ++ " bytes".toList
  | .expressionExceedsBytes =>
      "revision expression exceeds ".toList ++ Nat.toDigits 10 maxRevisionSelectorBytes
      ++ " bytes".toList
  | .oid error => "object id: ".toList ++ error.message
  | .otherAlgorithm given repository =>
      "object id is ".toList ++ given.name ++ " but this repository is ".toList
      ++ repository.name
  | .longHex algorithm =>
      "hex digest is longer than ".toList ++ Nat.toDigits 10 algorithm.hexLen
      ++ " characters".toList
  | .reserved =>
      reservedRefPrefix
      ++ " is an internal namespace and cannot be named as a revision".toList
  | .unsupported input =>
      "revision selector ".toList ++ quoted input
      ++ (" is not a branch, tag, object id, or allowed abbreviation; revision expressions "
        ++ "are not supported").toList
  | .leadingDash => "revision selector may not start with `-`".toList
  | .outerDot => "revision selector may not start or end with `.`".toList
  | .malformed input => quoted input ++ " is not a valid ref name".toList
  | .justRefs => "ref name is just `refs/`".toList
  | .pseudoRef input =>
      quoted input ++ " is a per-worktree pseudo-ref and has no meaning in a bare mirror".toList
  | .noBase input suffix =>
      "revision expression ".toList ++ quoted input ++ " has no revision before ".toList
      ++ quoted suffix
  | .badCount digits => quoted digits ++ " is not a usable ancestry count".toList
  | .tooFar =>
      "an ancestry walk may cover at most ".toList ++ Nat.toDigits 10 maxAncestryDistance
      ++ " commits".toList

end RevisionRefusal

-- Names

/-- `char::is_whitespace`. -/
def isWhitespace (c : Char) : Bool :=
  let n := c.toNat
  (9 ≤ n && n ≤ 13) || n = 0x20 || n = 0x85 || n = 0xA0 || n = 0x1680
  || (0x2000 ≤ n && n ≤ 0x200A) || n = 0x2028 || n = 0x2029 || n = 0x202F || n = 0x205F
  || n = 0x3000

/-- `str::trim`. -/
def trim (text : Text) : Text :=
  (text.dropWhile isWhitespace).rdropWhile isWhitespace

/-- The characters of a name, one by one. -/
def checkChars (input : Text) : Text → Except RevisionRefusal Unit
  | [] => .ok ()
  | c :: rest =>
      -- The operators of a revision expression, and then what no ref name may hold.
      if c ∈ ['~', '^', ':', '@'] then .error (.unsupported input)
      else if c ∈ ['?', '*', '[', ']', '\\', '\x7f'] then .error (.malformed input)
      else if isWhitespace c || isControl c then .error (.malformed input)
      else checkChars input rest

/-- Reject what makes a string an expression rather than a name, and the characters that
`git check-ref-format` forbids.
-/
def rejectExpressionSyntax (input : Text) : Except RevisionRefusal Unit :=
  if input.head? = some '-' then .error .leadingDash
  else if input.head? = some '.' ∨ input.getLast? = some '.' then .error .outerDot
  else if input.hasPair '.' '.' || input.hasPair '@' '{' || input.hasPair '/' '/' then
    .error (.unsupported input)
  else if ".lock".toList <:+ input ∨ input.getLast? = some '/' ∨ input.head? = some '/' then
    .error (.malformed input)
  else if input = ['@'] then .error (.unsupported input)
  else checkChars input input

/-- Reject anything that would resolve into the reserved namespace. -/
def rejectReservedNamespace (input : Text) : Except RevisionRefusal Unit :=
  if isReservedRef input || isReservedRef ("refs/".toList ++ input) then .error .reserved
  else .ok ()

/-- The components of a name, one by one. -/
def checkComponents (input : Text) : List Text → Except RevisionRefusal Unit
  | [] => .ok ()
  | component :: rest =>
      if component = [] then .error (.malformed input)
      else if component.head? = some '.' ∨ ".lock".toList <:+ component then
        .error (.malformed input)
      else checkComponents input rest

def validateRefName (input : Text) : Except RevisionRefusal Unit :=
  checkComponents input (input.splitOn '/')

-- Selectors

inductive RevisionSelector where
  /-- A full-length hex digest. -/
  | fullOid (oid : ObjectId)
  /-- A hex prefix. -/
  | abbrev (text : Text)
  /-- A fully qualified ref name, `refs/...`. -/
  | fullRef (text : Text)
  /-- A branch or tag short name, or the literal `HEAD`. -/
  | shortName (text : Text)
  deriving DecidableEq, Repr

namespace RevisionSelector

/-- The string form to hand to ref resolution. -/
def asStr : RevisionSelector → Text
  | .fullOid _ => []
  | .abbrev text => text
  | .fullRef text => text
  | .shortName text => text

/-- A selector that is no object id. -/
def parseName (input : Text) : Except RevisionRefusal RevisionSelector := do
  rejectReservedNamespace input
  rejectExpressionSyntax input
  if "refs/".toList <+: input then do
    validateRefName input
    if input.drop "refs/".toList.length = [] then .error .justRefs
    else .ok (.fullRef input)
  else if input = "HEAD".toList then .ok (.shortName input)
  else if input.all (fun c => c.isUpper || c = '_') then .error (.pseudoRef input)
  else do
    validateRefName input
    .ok (.shortName input)

/-- Parse and validate a caller-supplied selector. -/
def parse (input : Text) (algorithm : HashAlgorithm)
    : Except RevisionRefusal RevisionSelector :=
  if input = [] then .error .empty
  else if input.len > maxRevisionSelectorBytes then .error .exceedsBytes
  else if ':' ∈ input then
    -- Only an algorithm may stand before a colon.
    match HashAlgorithm.fromName (input.takeWhile (· ≠ ':')) with
    | none => .error (.unsupported input)
    | some _ =>
        match ObjectId.parseQualified input with
        | .error refusal => .error (.oid refusal)
        | .ok oid =>
            if oid.algorithm ≠ algorithm then
              .error (.otherAlgorithm oid.algorithm algorithm)
            else .ok (.fullOid oid)
  else if isHex input then
    if input.len = algorithm.hexLen then
      match ObjectId.fromHex algorithm input with
      | .error refusal => .error (.oid refusal)
      | .ok oid => .ok (.fullOid oid)
    else if input.len > algorithm.hexLen then .error (.longHex algorithm)
    else if input.len ≥ minAbbrevHex then .ok (.abbrev input)
    -- Short enough to be a name that happens to be all hex.
    else parseName input
  else parseName input

end RevisionSelector

-- Components

namespace Text

theorem splitOn_slash (before after : Text)
    : (before ++ '/' :: after).splitOn '/' = before.splitOn '/' ++ after.splitOn '/' :=
  splitOn_append '/' before after

theorem splitOn_component {part : Text} (clean : '/' ∉ part) : part.splitOn '/' = [part] :=
  splitOn_clean clean

theorem splitOn_cons {c : Char} (noSlash : c ≠ '/') (text : Text)
    : ∃ first rest,
        text.splitOn '/' = first :: rest ∧ (c :: text).splitOn '/' = (c :: first) :: rest := by
  by_cases nested : '/' ∈ text
  · obtain ⟨before, after, rfl, clean⟩ := List.eq_append_cons_of_mem nested
    refine ⟨before, after.splitOn '/', ?_, ?_⟩
    · rw [splitOn_slash, splitOn_component clean]
      rfl
    · rw [← List.cons_append, splitOn_slash, splitOn_component]
      · rfl
      · simp [clean, Ne.symm noSlash]
  · refine ⟨text, [], splitOn_component nested, splitOn_component ?_⟩
    simp [nested, Ne.symm noSlash]

/-- The end of a text that has no slash is the end of a component. -/
theorem exists_component_suffix {ending : Text} (clean : '/' ∉ ending) (front : Text)
    : ∃ part ∈ (front ++ ending).splitOn '/', ending <:+ part := by
  induction front with
  | nil =>
      refine ⟨ending, ?_, List.suffix_refl _⟩
      rw [List.nil_append, splitOn_component clean]
      exact List.mem_singleton_self _
  | cons c front ih =>
      obtain ⟨part, member, ends⟩ := ih
      rw [List.cons_append]
      by_cases slash : c = '/'
      · refine ⟨part, ?_, ends⟩
        rw [slash, ← List.nil_append ('/' :: _), splitOn_slash]
        exact List.mem_append_right _ member
      · obtain ⟨first, rest, split_, joined⟩ := splitOn_cons slash (front ++ ending)
        rw [split_] at member
        rw [joined]
        cases List.mem_cons.mp member with
        | inl same =>
            refine ⟨c :: first, List.mem_cons_self, ?_⟩
            exact (same ▸ ends).trans (List.suffix_cons _ _)
        | inr later => exact ⟨part, List.mem_cons_of_mem _ later, ends⟩

theorem exists_pair {first second : Char} {text : Text}
    (found : text.hasPair first second = true)
    : ∃ front back, text = front ++ first :: second :: back := by
  induction text with
  | nil => cases found
  | cons c text ih =>
      cases text with
      | nil => cases found
      | cons next rest =>
          simp only [hasPair, Bool.or_eq_true, Bool.and_eq_true, decide_eq_true_eq] at found
          rcases found with ⟨rfl, rfl⟩ | later
          · exact ⟨[], rest, rfl⟩
          · obtain ⟨front, back, same⟩ := ih later
            exact ⟨c :: front, back, by rw [same]; rfl⟩

end Text

-- The grammar of names

/-- A character that a name may hold: none of Git's special ones, no at sign or closing bracket,
no white space and no control character.
-/
def isNameChar (c : Char) : Bool :=
  c ∉ ['~', '^', ':', '@'] && c ∉ ['?', '*', '[', ']', '\\', '\x7f']
  && !(isWhitespace c || isControl c)

/-- A component that a name may have. -/
def IsNamePart (part : Text) : Prop :=
  part ≠ [] ∧ part.head? ≠ some '.' ∧ ¬".lock".toList <:+ part

/-- A well-formed name. -/
structure IsName (text : Text) : Prop where
  chars : ∀ c ∈ text, isNameChar c = true
  parts : ∀ part ∈ text.splitOn '/', IsNamePart part
  noDash : text.head? ≠ some '-'
  noDots : text.hasPair '.' '.' = false
  noDot : text.getLast? ≠ some '.'

variable {input : Text} {algorithm : HashAlgorithm}

theorem checkChars_eq_ok {text : Text}
    : checkChars input text = .ok () ↔ ∀ c ∈ text, isNameChar c = true := by
  induction text with
  | nil => simp [checkChars]
  | cons c rest ih =>
      rw [checkChars, List.forall_mem_cons, ← ih, isNameChar]
      split
      · rename_i operator
        simp [operator]
      · rename_i operand
        split
        · rename_i special
          simp [special]
        · rename_i common
          split
          · rename_i blank
            simp [blank]
          · rename_i visible
            simp [operand, common, visible]

theorem checkComponents_eq_ok {parts : List Text}
    : checkComponents input parts = .ok () ↔ ∀ part ∈ parts, IsNamePart part := by
  induction parts with
  | nil => simp [checkComponents]
  | cons part rest ih =>
      rw [checkComponents, List.forall_mem_cons, ← ih, IsNamePart]
      split
      · rename_i empty
        simp [empty]
      · rename_i some_
        split
        · rename_i bad
          simp only [reduceCtorEq, false_iff, not_and]
          exact fun part => absurd bad (not_or.mpr part.2)
        · rename_i good
          exact (and_iff_right ⟨some_, not_or.mp good⟩).symm

/-- A name passes both checks exactly when it is well formed. -/
theorem isName_iff
    : rejectExpressionSyntax input = .ok () ∧ validateRefName input = .ok () ↔ IsName input := by
  rw [validateRefName, checkComponents_eq_ok]
  constructor
  · rintro ⟨plain, parts⟩
    rw [rejectExpressionSyntax] at plain
    split at plain
    · cases plain
    rename_i noDash
    split at plain
    · cases plain
    rename_i outer
    split at plain
    · cases plain
    rename_i pairs
    split at plain
    · cases plain
    split at plain
    · cases plain
    simp only [Bool.or_eq_true, not_or, Bool.not_eq_true] at pairs
    exact ⟨checkChars_eq_ok.mp plain, parts, noDash, pairs.1.1, (not_or.mp outer).2⟩
  · intro name
    refine ⟨?_, name.parts⟩
    have whole : [] ∉ input.splitOn '/' := fun member => (name.parts [] member).1 rfl
    rw [rejectExpressionSyntax, if_neg name.noDash, if_neg, if_neg, if_neg, if_neg]
    · exact checkChars_eq_ok.mpr name.chars
    · rintro rfl
      exact absurd (name.chars '@' (List.mem_singleton_self _)) (by decide)
    · rintro (locked | last | first)
      · obtain ⟨front, rfl⟩ := locked
        obtain ⟨part, member, ends⟩ :=
          @Text.exists_component_suffix ".lock".toList (by decide) front
        exact (name.parts part member).2.2 ends
      · obtain ⟨front, rfl⟩ := List.getLast?_eq_some_iff.mp last
        refine whole ?_
        rw [Text.splitOn_slash]
        exact List.mem_append_right _ (List.mem_singleton_self _)
      · obtain ⟨rest, rfl⟩ := List.head?_eq_some_iff.mp first
        refine whole ?_
        rw [← List.nil_append ('/' :: rest), Text.splitOn_slash]
        exact List.mem_append_left _ (List.mem_singleton_self _)
    · simp only [Bool.or_eq_true, name.noDots, Bool.false_eq_true, false_or, not_or]
      constructor
      · intro found
        obtain ⟨front, back, rfl⟩ := Text.exists_pair found
        exact absurd (name.chars '@' (by simp)) (by decide)
      · intro found
        obtain ⟨front, back, rfl⟩ := Text.exists_pair found
        refine whole ?_
        rw [Text.splitOn_slash, ← List.nil_append ('/' :: back), Text.splitOn_slash]
        exact List.mem_append_right _ (List.mem_append_left _ (List.mem_singleton_self _))
    · rintro (first | last)
      · obtain ⟨rest, rfl⟩ := List.head?_eq_some_iff.mp first
        obtain ⟨part, others, -, joined⟩ := Text.splitOn_cons (by decide : '.' ≠ '/') rest
        exact (name.parts ('.' :: part) (by rw [joined]; exact List.mem_cons_self)).2.1 rfl
      · exact name.noDot last

-- The grammar of selectors

/-- A string selects an object or a ref of a repository: an object id with or without its
algorithm, a hex abbreviation, a full ref, `HEAD` or a short name. A name is no object id or
abbreviation, not reserved and, but for `HEAD`, no pseudo-ref.
-/
inductive Selects (algorithm : HashAlgorithm) : Text → RevisionSelector → Prop where
  | qualified {hex : Text} {raw : Bytes} (read : fromHexPairs hex = some raw)
      (sized : raw.length = algorithm.rawLen)
      : Selects algorithm (algorithm.name ++ ':' :: hex) (.fullOid ⟨algorithm, raw⟩)
  | full {hex : Text} {raw : Bytes} (read : fromHexPairs hex = some raw)
      (sized : raw.length = algorithm.rawLen)
      : Selects algorithm hex (.fullOid ⟨algorithm, raw⟩)
  | abbrev {hex : Text} (digits : isHex hex = true) (least : minAbbrevHex ≤ hex.length)
      (short : hex.length < algorithm.hexLen)
      : Selects algorithm hex (.abbrev hex)
  | fullRef {text : Text} (name : IsName text) (qualified : "refs/".toList <+: text)
      (free : ¬reservedRefPrefix <+: text) (fits : text.len ≤ maxRevisionSelectorBytes)
      : Selects algorithm text (.fullRef text)
  | head : Selects algorithm "HEAD".toList (.shortName "HEAD".toList)
  | shortName {text : Text} (name : IsName text) (unqualified : ¬"refs/".toList <+: text)
      (free : ¬"gfs/".toList <+: text)
      (apart : ¬(isHex text = true ∧ minAbbrevHex ≤ text.length))
      (lower : ∃ c ∈ text, (c.isUpper || c = '_') = false)
      (fits : text.len ≤ maxRevisionSelectorBytes)
      : Selects algorithm text (.shortName text)

/-- A text is not reserved, under its own name or behind `refs/`. -/
theorem rejectReservedNamespace_eq_ok
    : rejectReservedNamespace input = .ok ()
      ↔ ¬reservedRefPrefix <+: input ∧ ¬"gfs/".toList <+: input := by
  have behind : isReservedRef ("refs/".toList ++ input) = true ↔ "gfs/".toList <+: input := by
    rw [isReservedRef_iff,
      show reservedRefPrefix = "refs/".toList ++ "gfs/".toList by decide,
      List.prefix_append_right_inj]
  rw [rejectReservedNamespace]
  split
  · rename_i reserved
    simp only [reduceCtorEq, false_iff, ← behind, ← isReservedRef_iff, ← not_or, not_not]
    simpa using reserved
  · rename_i free
    simp only [true_iff, ← behind, ← isReservedRef_iff, ← not_or]
    simpa using free

theorem not_gfs_of_refs (qualified : "refs/".toList <+: input)
    : ¬"gfs/".toList <+: input := by
  rintro ⟨rest, rfl⟩
  obtain ⟨rest', same⟩ := qualified
  exact absurd (List.cons.inj same).1 (by decide)

/-- A text that is no object id selects exactly what the grammar of names says. -/
theorem parseName_eq_ok {selector : RevisionSelector}
    : RevisionSelector.parseName input = .ok selector
      ↔ (IsName input ∧ "refs/".toList <+: input ∧ ¬reservedRefPrefix <+: input
          ∧ selector = .fullRef input)
        ∨ (input = "HEAD".toList ∧ selector = .shortName input)
        ∨ (IsName input ∧ ¬"refs/".toList <+: input ∧ ¬"gfs/".toList <+: input
          ∧ (∃ c ∈ input, (c.isUpper || c = '_') = false)
          ∧ selector = .shortName input) := by
  constructor
  · intro run
    obtain ⟨⟨⟩, free, run⟩ := bind_eq_ok.mp run
    obtain ⟨free, behind⟩ := rejectReservedNamespace_eq_ok.mp free
    obtain ⟨⟨⟩, plain, run⟩ := bind_eq_ok.mp run
    split at run
    · rename_i qualified
      obtain ⟨⟨⟩, valid, run⟩ := bind_eq_ok.mp run
      split at run
      · cases run
      · cases run
        exact .inl ⟨isName_iff.mp ⟨plain, valid⟩, qualified, free, rfl⟩
    · rename_i unqualified
      split at run
      · rename_i head
        cases run
        exact .inr (.inl ⟨head, rfl⟩)
      · split at run
        · cases run
        · rename_i lower
          obtain ⟨⟨⟩, valid, run⟩ := bind_eq_ok.mp run
          cases run
          simp only [List.all_eq_true, not_forall, Bool.not_eq_true] at lower
          obtain ⟨c, member, small⟩ := lower
          exact .inr (.inr ⟨isName_iff.mp ⟨plain, valid⟩, unqualified, behind,
            ⟨c, member, small⟩, rfl⟩)
  · rintro (⟨name, qualified, free, rfl⟩ | ⟨rfl, rfl⟩ | ⟨name, unqualified, behind, lower, rfl⟩)
    · obtain ⟨plain, valid⟩ := isName_iff.mpr name
      have some_ : input.drop "refs/".toList.length ≠ [] := by
        intro none_
        obtain ⟨rest, rfl⟩ := qualified
        rw [List.drop_left] at none_
        subst none_
        exact (name.parts [] (by decide)).1 rfl
      rw [RevisionSelector.parseName,
        rejectReservedNamespace_eq_ok.mpr ⟨free, not_gfs_of_refs qualified⟩, plain]
      change (if "refs/".toList <+: input then _ else _) = _
      rw [if_pos qualified, valid]
      exact if_neg some_
    · rfl
    · obtain ⟨plain, valid⟩ := isName_iff.mpr name
      have free : ¬reservedRefPrefix <+: input :=
        fun reserved => unqualified ((List.prefix_append _ _).trans reserved)
      obtain ⟨c, member, small⟩ := lower
      have notHead : input ≠ "HEAD".toList := by
        rintro rfl
        have every : "HEAD".toList.all (fun c => c.isUpper || c = '_') = true := by decide
        rw [List.all_eq_true.mp every c member] at small
        cases small
      have notPseudo : ¬input.all (fun c => c.isUpper || c = '_') = true := by
        intro all
        rw [List.all_eq_true.mp all c member] at small
        cases small
      rw [RevisionSelector.parseName, rejectReservedNamespace_eq_ok.mpr ⟨free, behind⟩, plain]
      change (if "refs/".toList <+: input then _ else _) = _
      rw [if_neg unqualified, if_neg notHead, if_neg notPseudo, valid]
      rfl

-- Parsing selectors

theorem len_of_hex {hex : Text} (digits : ∀ c ∈ hex, (hexVal c).isSome = true)
    : hex.len = hex.length := by
  rw [← Text.utf8_length, Text.utf8_ascii (fun c member => toNat_lt_of_hexVal (digits c member)),
    List.length_map]

theorem isHex_iff {text : Text}
    : isHex text = true ↔ text ≠ [] ∧ ∀ c ∈ text, (hexVal c).isSome = true := by
  simp [isHex]

theorem digest_of_read {hex : Text} {raw : Bytes} (read : fromHexPairs hex = some raw)
    (sized : raw.length = algorithm.rawLen)
    : isHex hex = true
      ∧ hex.len = algorithm.hexLen
      ∧ ObjectId.fromHex algorithm hex = .ok ⟨algorithm, raw⟩ := by
  obtain ⟨pairs, digits⟩ := fromHexPairs_length read
  have ascii := len_of_hex digits
  have whole : hex.len = algorithm.hexLen := by
    rw [ascii, ← pairs, sized, HashAlgorithm.hexLen]
  refine ⟨isHex_iff.mpr ⟨?_, digits⟩, whole, ?_⟩
  · rintro rfl
    cases algorithm <;> cases whole
  · simp [ObjectId.fromHex, whole, read]

theorem fromHex_eq_ok {hex : Text} {oid : ObjectId} (digits : isHex hex = true)
    : ObjectId.fromHex algorithm hex = .ok oid
      ↔ ∃ raw,
          fromHexPairs hex = some raw
          ∧ raw.length = algorithm.rawLen
          ∧ oid = ⟨algorithm, raw⟩ := by
  constructor
  · intro parsed
    rw [ObjectId.fromHex] at parsed
    split at parsed
    · cases parsed
    · rename_i whole
      cases read : fromHexPairs hex with
      | none => rw [read] at parsed; cases parsed
      | some raw =>
          rw [read] at parsed
          cases parsed
          refine ⟨raw, rfl, ?_, rfl⟩
          have pairs := (fromHexPairs_length read).1
          rw [len_of_hex (isHex_iff.mp digits).2, HashAlgorithm.hexLen, not_not] at whole
          omega
  · rintro ⟨raw, read, sized, rfl⟩
    exact (digest_of_read read sized).2.2

theorem parseQualified_append (algorithm : HashAlgorithm) (hex : Text)
    : (algorithm.name ++ ':' :: hex).takeWhile (· ≠ ':') = algorithm.name
      ∧ ObjectId.parseQualified (algorithm.name ++ ':' :: hex)
        = ObjectId.fromHex algorithm hex := by
  have clean : ∀ c ∈ algorithm.name, decide (c ≠ ':') = true := by
    have every : algorithm.name.all (· ≠ ':') = true := by cases algorithm <;> decide
    exact List.all_eq_true.mp every
  have after : (algorithm.name ++ ':' :: hex).dropWhile (· ≠ ':') = ':' :: hex := by
    rw [List.dropWhile_append_of_pos clean]
    simp
  have before : (algorithm.name ++ ':' :: hex).takeWhile (· ≠ ':') = algorithm.name := by
    rw [List.takeWhile_append_of_pos clean]
    simp
  refine ⟨before, ?_⟩
  rw [ObjectId.parseQualified, after, before]
  simp only [HashAlgorithm.fromName_name]

theorem colon_notMem_of_digits {hex : Text} (digits : isHex hex = true) : ':' ∉ hex :=
  fun member => absurd ((isHex_iff.mp digits).2 ':' member) (by decide)

theorem IsName.ne_nil {text : Text} (name : IsName text) : text ≠ [] := by
  rintro rfl
  exact (name.parts [] (List.mem_singleton_self _)).1 rfl

theorem IsName.no_colon {text : Text} (name : IsName text) : ':' ∉ text :=
  fun member => absurd (name.chars ':' member) (by decide)

theorem parse_of_name (some_ : input ≠ []) (fits : input.len ≤ maxRevisionSelectorBytes)
    (plain : ':' ∉ input) (apart : ¬(isHex input = true ∧ minAbbrevHex ≤ input.length))
    : RevisionSelector.parse input algorithm = RevisionSelector.parseName input := by
  rw [RevisionSelector.parse, if_neg some_, if_neg (Nat.not_lt.mpr fits), if_neg plain]
  split
  · rename_i digits
    have ascii := len_of_hex (isHex_iff.mp digits).2
    have short : input.len < minAbbrevHex := by
      rw [ascii]
      exact Nat.lt_of_not_le (fun long => apart ⟨digits, long⟩)
    have wide : minAbbrevHex < algorithm.hexLen := by cases algorithm <;> decide
    rw [if_neg (by omega), if_neg (by omega), if_neg (by omega)]
  · rfl

/-- A selector parses exactly as the grammar says. -/
theorem parse_eq_ok {selector : RevisionSelector}
    : RevisionSelector.parse input algorithm = .ok selector ↔ Selects algorithm input selector := by
  constructor
  · intro run
    rw [RevisionSelector.parse] at run
    split at run
    · cases run
    split at run
    · cases run
    rename_i fits
    -- A name, where it is no abbreviation.
    have named (apart : ¬(isHex input = true ∧ minAbbrevHex ≤ input.length))
        (parsed : RevisionSelector.parseName input = .ok selector)
        : Selects algorithm input selector := by
      rcases parseName_eq_ok.mp parsed with
        ⟨name, qualified, free, rfl⟩ | ⟨rfl, rfl⟩ | ⟨name, unqualified, free, lower, rfl⟩
      · exact .fullRef name qualified free (Nat.not_lt.mp fits)
      · exact .head
      · exact .shortName name unqualified free apart lower (Nat.not_lt.mp fits)
    split at run
    · split at run
      · cases run
      · split at run
        · cases run
        · rename_i oid parsed
          split at run
          · cases run
          · rename_i same
            cases run
            have sized := ObjectId.sized_of_parseQualified parsed
            obtain ⟨hex, spelled, read⟩ := ObjectId.parts_of_parseQualified parsed
            obtain ⟨given, raw⟩ := oid
            rw [not_not] at same
            cases same
            rw [spelled]
            exact .qualified read sized
    · split at run
      · rename_i digits
        have ascii := len_of_hex (isHex_iff.mp digits).2
        split at run
        · split at run
          · cases run
          · rename_i oid parsed
            cases run
            obtain ⟨raw, read, sized, rfl⟩ := (fromHex_eq_ok digits).mp parsed
            exact .full read sized
        · split at run
          · cases run
          · split at run
            · cases run
              exact .abbrev digits (by omega) (by omega)
            · exact named (by omega) run
      · rename_i digits
        exact named (fun both => digits both.1) run
  · intro selects
    cases selects with
    | @qualified hex raw read sized =>
        obtain ⟨before, same⟩ := parseQualified_append algorithm hex
        obtain ⟨-, whole, parsed⟩ := digest_of_read read sized
        have fits : ¬(algorithm.name ++ ':' :: hex).len > maxRevisionSelectorBytes := by
          have total : (algorithm.name ++ ':' :: hex).len = algorithm.name.len + 1 + hex.len := by
            simp only [Text.len, List.map_append, List.map_cons, List.sum_append, List.sum_cons]
            rw [show Char.utf8Size ':' = 1 by decide, Nat.add_assoc]
          rw [total, whole]
          cases algorithm <;> decide
        rw [RevisionSelector.parse, if_neg (by simp), if_neg fits, if_pos (by simp), before,
          HashAlgorithm.fromName_name, same, parsed]
        exact if_neg (not_not.mpr rfl)
    | @full _ raw read sized =>
        obtain ⟨digits, whole, parsed⟩ := digest_of_read read sized
        have fits : ¬input.len > maxRevisionSelectorBytes := by
          rw [whole]
          cases algorithm <;> decide
        rw [RevisionSelector.parse, if_neg (isHex_iff.mp digits).1, if_neg fits,
          if_neg (colon_notMem_of_digits digits), if_pos digits, if_pos whole, parsed]
    | «abbrev» digits least short =>
        have ascii := len_of_hex (isHex_iff.mp digits).2
        have wide : algorithm.hexLen ≤ maxRevisionSelectorBytes := by cases algorithm <;> decide
        rw [RevisionSelector.parse, if_neg (isHex_iff.mp digits).1, if_neg (by omega),
          if_neg (colon_notMem_of_digits digits), if_pos digits, if_neg (by omega),
          if_neg (by omega), if_pos (by omega)]
    | fullRef name qualified free fits =>
        rw [parse_of_name (name.ne_nil) fits name.no_colon, parseName_eq_ok]
        · exact .inl ⟨name, qualified, free, rfl⟩
        · rintro ⟨digits, -⟩
          obtain ⟨rest, rfl⟩ := qualified
          exact absurd ((isHex_iff.mp digits).2 'r' (by simp)) (by decide)
    | head => rfl
    | shortName name unqualified free apart lower fits =>
        rw [parse_of_name (name.ne_nil) fits name.no_colon apart, parseName_eq_ok]
        exact .inr (.inr ⟨name, unqualified, free, lower, rfl⟩)

end Gfs.Types
