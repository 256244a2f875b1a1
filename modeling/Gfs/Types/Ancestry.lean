import Gfs.Types.Selector

/-! Revisions with an ancestry walk after them (`gfs-types/src/revision.rs`): which strings are
accepted, how they are written again, and that none names a ref of the reserved namespace.
-/

namespace Gfs.Types

/-- One ancestry hop. -/
inductive AncestryStep where
  /-- `^n`: which parent of one commit. -/
  | parent (n : Nat)
  /-- `~n`: how many commits along first parents. -/
  | ancestor (n : Nat)
  deriving DecidableEq, Repr

def AncestryStep.count : AncestryStep → Nat
  | .parent n => n
  | .ancestor n => n

/-- The hop an operator writes. A chain begins at one of the two, and goes on at one. -/
def hop (op : Char) (n : Nat) : AncestryStep :=
  if op = '^' then .parent n else .ancestor n

/-- The count of a hop: an absent one is 1. -/
def readCount (digits : Text) : Option Nat :=
  if digits = [] then some 1 else parseUnsigned 32 digits

/-- The operator chain. The whole input is for diagnostics. -/
def ancestrySteps (full : Text) : Text → Except RevisionRefusal (List AncestryStep)
  | [] => .ok []
  | op :: rest =>
      let digits := rest.takeWhile Char.isDigit
      let more := rest.dropWhile Char.isDigit
      if more ≠ [] ∧ more.head? ≠ some '~' ∧ more.head? ≠ some '^' then
        .error (.unsupported full)
      else
        match readCount digits with
        | none => .error (.badCount digits)
        | some n => do
            let steps ← ancestrySteps full more
            .ok (hop op n :: steps)
  termination_by suffix => suffix.length
  decreasing_by
    have shorter := (List.dropWhile_suffix (l := rest) Char.isDigit).length_le
    simp only [List.length_cons]
    omega

def parseAncestry (full suffix : Text) : Except RevisionRefusal (List AncestryStep) := do
  let steps ← ancestrySteps full suffix
  if (steps.map AncestryStep.count).sum > maxAncestryDistance then .error .tooFar
  else .ok steps

/-- A selector plus an ancestry walk. -/
structure RevisionExpression where
  base : RevisionSelector
  steps : List AncestryStep
  deriving DecidableEq, Repr

/-- Whether a character begins an operator. -/
def isOperator (c : Char) : Bool :=
  c = '~' || c = '^'

/-- Parse a selector that a chain of `~n` and `^n` may follow. -/
def RevisionExpression.parse (input : Text) (algorithm : HashAlgorithm)
    : Except RevisionRefusal RevisionExpression :=
  if input.len > maxRevisionSelectorBytes then .error .expressionExceedsBytes
  else
    let base := input.takeWhile (!isOperator ·)
    let suffix := input.dropWhile (!isOperator ·)
    if base = [] then .error (.noBase input suffix)
    else do
      let base ← RevisionSelector.parse base algorithm
      let steps ← parseAncestry input suffix
      .ok ⟨base, steps⟩

-- The grammar of walks

/-- Digits count a hop: a decimal number, or one where there are none. -/
def Counts (digits : Text) (n : Nat) : Prop :=
  (digits = [] ∧ n = 1)
  ∨ (digits ≠ [] ∧ (∀ c ∈ digits, c.isDigit = true) ∧ Nat.ofDigitChars 10 digits 0 = n)

/-- A string writes a walk: operators, each with the digits of its count. -/
inductive Walks : Text → List AncestryStep → Prop where
  | done : Walks [] []
  | step {op : Char} {digits rest : Text} {n : Nat} {steps : List AncestryStep}
      (operator : isOperator op = true) (counts : Counts digits n) (more : Walks rest steps)
      : Walks (op :: (digits ++ rest)) (hop op n :: steps)

theorem count_hop (op : Char) (n : Nat) : (hop op n).count = n := by
  rw [hop]
  split <;> rfl

theorem Counts.digits {digits : Text} {n : Nat} (counts : Counts digits n)
    : ∀ c ∈ digits, c.isDigit = true := by
  rcases counts with ⟨rfl, -⟩ | ⟨-, all, -⟩
  · exact fun c member => nomatch member
  · exact all

/-- A count is read when it fits its width. -/
theorem readCount_eq_some {digits : Text} {n : Nat} (all : ∀ c ∈ digits, c.isDigit = true)
    : readCount digits = some n ↔ Counts digits n ∧ n < 2 ^ 32 := by
  rw [readCount]
  split
  · rename_i none_
    subst none_
    constructor
    · intro one
      cases one
      exact ⟨.inl ⟨rfl, rfl⟩, by decide⟩
    · rintro ⟨⟨-, rfl⟩ | ⟨some_, -⟩, -⟩
      · rfl
      · exact absurd rfl some_
  · rename_i some_
    have unsigned : digits.head? ≠ some '+' := by
      intro plus
      exact absurd (all '+' (List.mem_of_head? plus)) (by decide)
    have parsed : parseDigits digits = some (Nat.ofDigitChars 10 digits 0) := by
      rw [parseDigits, if_neg some_, List.all_eq_true.mpr all]
      rfl
    rw [parseUnsigned, if_neg unsigned, parsed]
    change (if Nat.ofDigitChars 10 digits 0 < 2 ^ 32 then some (Nat.ofDigitChars 10 digits 0)
      else none) = some n ↔ _
    constructor
    · intro read
      split at read
      · rename_i small
        cases read
        exact ⟨.inr ⟨some_, all, rfl⟩, small⟩
      · cases read
    · rintro ⟨⟨none_, -⟩ | ⟨-, -, rfl⟩, small⟩
      · exact absurd none_ some_
      · exact if_pos small

variable {steps : List AncestryStep}

theorem Walks.head {suffix : Text} (walks : Walks suffix steps)
    : ∀ c ∈ suffix.head?, isOperator c = true := by
  cases walks with
  | done => exact fun c member => nomatch member
  | step operator _ _ =>
      rintro c same
      cases same
      exact operator

theorem isOperator_iff {c : Char} : isOperator c = true ↔ c = '~' ∨ c = '^' := by
  simp [isOperator]

theorem Walks.split {digits rest : Text} {n : Nat}
    (counts : Counts digits n) (more : Walks rest steps)
    : (digits ++ rest).takeWhile Char.isDigit = digits
      ∧ (digits ++ rest).dropWhile Char.isDigit = rest := by
  have ends : ∀ c ∈ rest.head?, c.isDigit = false := by
    intro c first
    rcases isOperator_iff.mp (more.head c first) with rfl | rfl
    · decide
    · decide
  cases rest with
  | nil =>
      rw [List.append_nil]
      exact ⟨List.takeWhile_eq_self_iff.mpr counts.digits,
        List.dropWhile_eq_nil_iff.mpr counts.digits⟩
  | cons c rest =>
      have stops : ¬c.isDigit = true := by rw [ends c rfl]; exact Bool.false_ne_true
      rw [List.takeWhile_append_of_pos counts.digits, List.dropWhile_append_of_pos counts.digits,
        List.takeWhile_cons_of_neg stops, List.dropWhile_cons_of_neg stops, List.append_nil]
      exact ⟨rfl, rfl⟩

/-- An operator chain parses exactly as the walk it writes. -/
theorem ancestrySteps_eq_ok {full suffix : Text}
    (begins : ∀ c ∈ suffix.head?, isOperator c = true)
    : ancestrySteps full suffix = .ok steps
      ↔ Walks suffix steps ∧ ∀ step ∈ steps, step.count < 2 ^ 32 := by
  constructor
  · intro run
    induction suffix using ancestrySteps.induct generalizing steps with
    | case1 =>
        rw [ancestrySteps] at run
        cases run
        exact ⟨.done, fun step member => nomatch member⟩
    | case2 op rest more =>
        rename_i cut
        rw [ancestrySteps, if_pos cut] at run
        cases run
    | case3 op rest digits more =>
        rename_i goes uncounted
        rw [ancestrySteps, if_neg goes] at run
        rw [uncounted] at run
        cases run
    | case4 op rest digits more =>
        rename_i goes n counted ih
        rw [ancestrySteps, if_neg goes] at run
        rw [counted] at run
        obtain ⟨later, parsed, run⟩ := bind_eq_ok.mp run
        cases run
        have all : ∀ c ∈ digits, c.isDigit = true := fun c member => List.mem_takeWhile_imp member
        obtain ⟨counts, small⟩ := (readCount_eq_some all).mp counted
        have onwards : ∀ c ∈ more.head?, isOperator c = true := by
          intro c first
          have some_ : more ≠ [] := by
            intro none_
            rw [none_] at first
            cases first
          rw [Option.mem_def] at first
          rw [first] at goes
          rw [isOperator_iff]
          by_contra neither
          rw [not_or] at neither
          exact goes ⟨some_, by simpa using neither.1, by simpa using neither.2⟩
        obtain ⟨walks, bounds⟩ := ih onwards parsed
        refine ⟨?_, ?_⟩
        · rw [← List.takeWhile_append_dropWhile (p := Char.isDigit) (l := rest)]
          exact .step (begins op rfl) counts walks
        · intro step member
          cases List.mem_cons.mp member with
          | inl same =>
              rw [same]
              exact (count_hop op n).symm ▸ small
          | inr later => exact bounds step later
  · rintro ⟨walks, bounds⟩
    clear begins
    induction walks with
    | done => rw [ancestrySteps]
    | @step op digits rest n steps operator counts more ih =>
        obtain ⟨before, after⟩ := Walks.split counts more
        have small : n < 2 ^ 32 := by
          have first := bounds (hop op n) List.mem_cons_self
          rwa [count_hop] at first
        have goes : ¬(rest ≠ [] ∧ rest.head? ≠ some '~' ∧ rest.head? ≠ some '^') := by
          rintro ⟨some_, tilde, caret⟩
          obtain ⟨c, tail, rfl⟩ := List.exists_cons_of_ne_nil some_
          rcases isOperator_iff.mp (more.head c rfl) with rfl | rfl
          · exact tilde rfl
          · exact caret rfl
        rw [ancestrySteps]
        simp only [before, after]
        rw [if_neg goes, (readCount_eq_some counts.digits).mpr ⟨counts, small⟩]
        simp only [ih (fun step member => bounds step (List.mem_cons_of_mem _ member))]
        rfl

/-- How far a walk goes. -/
def distance (steps : List AncestryStep) : Nat :=
  (steps.map AncestryStep.count).sum

theorem parseAncestry_eq_ok {full suffix : Text}
    (begins : ∀ c ∈ suffix.head?, isOperator c = true)
    : parseAncestry full suffix = .ok steps
      ↔ Walks suffix steps ∧ distance steps ≤ maxAncestryDistance := by
  constructor
  · intro run
    obtain ⟨found, parsed, run⟩ := bind_eq_ok.mp run
    split at run
    · cases run
    · rename_i near
      cases run
      exact ⟨((ancestrySteps_eq_ok begins).mp parsed).1, Nat.not_lt.mp near⟩
  · rintro ⟨walks, near⟩
    have bounds : ∀ step ∈ steps, step.count < 2 ^ 32 := by
      intro step member
      have most : step.count ≤ distance steps :=
        List.le_sum_of_mem (List.mem_map_of_mem member)
      have limit : maxAncestryDistance < 2 ^ 32 := by decide
      omega
    rw [parseAncestry, (ancestrySteps_eq_ok begins).mpr ⟨walks, bounds⟩]
    exact if_neg (Nat.not_lt.mpr near)

-- Expressions

/-- A character that `git check-ref-format` forbids anywhere in a name. -/
def isForbidden (c : Char) : Bool :=
  c.toNat < 32 || c.toNat = 127 || " ~^:?*[\\".toList.contains c

theorem isForbidden_of_digit {c : Char} (digit : (hexVal c).isSome = true)
    : isForbidden c = false := by
  have table : ∀ code < 128, (hexVal (Char.ofNat code)).isSome = true
      → isForbidden (Char.ofNat code) = false := by
    decide
  have here := table c.toNat (toNat_lt_of_hexVal digit) (by rwa [Char.ofNat_toNat])
  rwa [Char.ofNat_toNat] at here

theorem isForbidden_of_nameChar {c : Char} (plain : isNameChar c = true)
    : isForbidden c = false := by
  rw [Bool.eq_false_iff]
  intro forbidden
  simp only [isNameChar, isControl, isWhitespace] at plain
  simp only [isForbidden, Bool.or_eq_true, decide_eq_true_eq, List.contains_iff_mem] at forbidden
  rcases forbidden with (control | delete) | special
  · simp [control] at plain
  · simp [delete] at plain
  · have each : " ~^:?*[\\".toList.all (fun other => !isNameChar other) = true := by decide
    have here := List.all_eq_true.mp each c special
    simp only [isNameChar, isControl, isWhitespace, plain] at here
    cases here

variable {algorithm : HashAlgorithm} {selector : RevisionSelector}

/-- What is selected by name or by digits holds no character that Git forbids, and what is
qualified only its colon.
-/
theorem Selects.clean {text : Text}
    (selects : Selects algorithm text selector)
    : (∀ c ∈ text, isForbidden c = false)
      ∨ ∃ hex,
          text = algorithm.name ++ ':' :: hex
          ∧ ∀ c ∈ algorithm.name ++ hex, isForbidden c = false := by
  have digits {hex : Text} (all : ∀ c ∈ hex, (hexVal c).isSome = true)
      : ∀ c ∈ hex, isForbidden c = false :=
    fun c member => isForbidden_of_digit (all c member)
  cases selects with
  | @qualified hex raw read sized =>
      refine .inr ⟨hex, rfl, ?_⟩
      have named : algorithm.name.all (fun c => !isForbidden c) = true := by
        cases algorithm <;> decide
      intro c member
      cases List.mem_append.mp member with
      | inl before => simpa using List.all_eq_true.mp named c before
      | inr after => exact digits (fromHexPairs_length read).2 c after
  | full read sized => exact .inl (digits (fromHexPairs_length read).2)
  | «abbrev» all least short => exact .inl (digits (isHex_iff.mp all).2)
  | fullRef name _ _ _ =>
      exact .inl (fun c member => isForbidden_of_nameChar (name.chars c member))
  | head =>
      have named : "HEAD".toList.all (fun c => !isForbidden c) = true := by decide
      exact .inl (fun c member => by simpa using List.all_eq_true.mp named c member)
  | shortName name _ _ _ _ _ =>
      exact .inl (fun c member => isForbidden_of_nameChar (name.chars c member))

theorem isForbidden_of_operator {c : Char} (operator : isOperator c = true)
    : isForbidden c = true := by
  rcases isOperator_iff.mp operator with rfl | rfl
  · decide
  · decide

theorem Selects.no_operator {text : Text}
    (selects : Selects algorithm text selector)
    : ∀ c ∈ text, (!isOperator c) = true := by
  intro c member
  rw [Bool.not_eq_true']
  by_contra operator
  rw [Bool.not_eq_false] at operator
  have forbidden := isForbidden_of_operator operator
  rcases selects.clean with clean | ⟨hex, rfl, clean⟩
  · rw [clean c member] at forbidden
    cases forbidden
  · rcases List.mem_append.mp member with before | after
    · rw [clean c (List.mem_append_left _ before)] at forbidden
      cases forbidden
    · rcases List.mem_cons.mp after with rfl | later
      · cases operator
      · rw [clean c (List.mem_append_right _ later)] at forbidden
        cases forbidden

theorem Selects.ne_nil {text : Text}
    (selects : Selects algorithm text selector)
    : text ≠ [] := by
  cases selects with
  | qualified _ _ => simp
  | full read sized => exact (isHex_iff.mp (digest_of_read read sized).1).1
  | «abbrev» digits _ _ => exact (isHex_iff.mp digits).1
  | fullRef name _ _ _ => exact name.ne_nil
  | head => decide
  | shortName name _ _ _ _ _ => exact name.ne_nil

/-- A string spells an expression: a selector and then a walk within the limit. -/
def Spells (algorithm : HashAlgorithm) (input : Text) (expression : RevisionExpression) : Prop :=
  ∃ base suffix,
    input = base ++ suffix
    ∧ Selects algorithm base expression.base
    ∧ Walks suffix expression.steps
    ∧ distance expression.steps ≤ maxAncestryDistance

/-- An expression parses exactly where a string that is not too long spells it. -/
theorem expression_eq_ok {input : Text}
    {expression : RevisionExpression}
    : RevisionExpression.parse input algorithm = .ok expression
      ↔ input.len ≤ maxRevisionSelectorBytes ∧ Spells algorithm input expression := by
  constructor
  · intro run
    rw [RevisionExpression.parse] at run
    split at run
    · cases run
    rename_i fits
    dsimp only at run
    split at run
    · cases run
    obtain ⟨base, selected, run⟩ := bind_eq_ok.mp run
    obtain ⟨steps, walked, run⟩ := bind_eq_ok.mp run
    cases run
    have begins : ∀ c ∈ (input.dropWhile (!isOperator ·)).head?, isOperator c = true := by
      intro c first
      have stops := List.head?_dropWhile_not (!isOperator ·) input
      rw [Option.mem_def] at first
      rw [first] at stops
      simpa using stops
    obtain ⟨walks, near⟩ := (parseAncestry_eq_ok begins).mp walked
    exact ⟨Nat.not_lt.mp fits, _, _, List.takeWhile_append_dropWhile.symm,
      parse_eq_ok.mp selected, walks, near⟩
  · rintro ⟨fits, base, suffix, rfl, selects, walks, near⟩
    obtain ⟨selector, steps⟩ := expression
    have before : (base ++ suffix).takeWhile (!isOperator ·) = base := by
      rw [List.takeWhile_append_of_pos selects.no_operator]
      cases suffix with
      | nil => simp
      | cons c rest => simp [walks.head c rfl]
    have after : (base ++ suffix).dropWhile (!isOperator ·) = suffix := by
      rw [List.dropWhile_append_of_pos selects.no_operator]
      cases suffix with
      | nil => simp
      | cons c rest => simp [walks.head c rfl]
    rw [RevisionExpression.parse, if_neg (Nat.not_lt.mpr fits), before, after,
      if_neg selects.ne_nil, parse_eq_ok.mpr selects,
      (parseAncestry_eq_ok walks.head).mpr ⟨walks, near⟩]
    rfl

-- Writing an expression again

/-- The digits of a count: none for 1. -/
def countText (n : Nat) : Text :=
  if n = 1 then [] else Nat.toDigits 10 n

def AncestryStep.print : AncestryStep → Text
  | .parent n => '^' :: countText n
  | .ancestor n => '~' :: countText n

def RevisionSelector.print : RevisionSelector → Text
  | .fullOid oid => toHex oid.raw
  | .abbrev text => text
  | .fullRef text => text
  | .shortName text => text

def RevisionExpression.print (expression : RevisionExpression) : Text :=
  expression.base.print ++ expression.steps.flatMap AncestryStep.print

theorem Text.len_append (before after : Text) : len (before ++ after) = before.len + after.len := by
  simp [len]

theorem len_of_isDigit {digits : Text} (all : ∀ c ∈ digits, c.isDigit = true)
    : digits.len = digits.length := by
  have ascii : ∀ c ∈ digits, c.toNat < 128 := by
    intro c member
    have digit := all c member
    simp only [Char.isDigit, ge_iff_le, Bool.and_eq_true, decide_eq_true_eq] at digit
    have most : c.toNat ≤ 57 := digit.2
    omega
  rw [← Text.utf8_length, Text.utf8_ascii ascii, List.length_map]

/-- Digits are worth less than the power of ten of their number. -/
theorem ofDigitChars_lt {digits : Text} (all : ∀ c ∈ digits, c.isDigit = true) (init : Nat)
    : Nat.ofDigitChars 10 digits init < (init + 1) * 10 ^ digits.length := by
  induction digits generalizing init with
  | nil =>
      rw [Nat.ofDigitChars_nil]
      simp
  | cons c digits ih =>
      obtain ⟨digit, all⟩ := List.forall_mem_cons.mp all
      simp only [Char.isDigit, ge_iff_le, Bool.and_eq_true, decide_eq_true_eq] at digit
      have most : c.toNat ≤ 57 := digit.2
      have value : c.toNat - '0'.toNat ≤ 9 := by
        change c.toNat - 48 ≤ 9
        omega
      rw [Nat.ofDigitChars_cons]
      calc
        Nat.ofDigitChars 10 digits (10 * init + (c.toNat - '0'.toNat))
            < (10 * init + (c.toNat - '0'.toNat) + 1) * 10 ^ digits.length := ih all _
        _ ≤ (init + 1) * 10 * 10 ^ digits.length := by
            apply Nat.mul_le_mul_right
            omega
        _ = (init + 1) * 10 ^ (c :: digits).length := by
            rw [List.length_cons, Nat.pow_succ]
            ring

theorem counts_countText (n : Nat) : Counts (countText n) n := by
  rw [countText]
  split
  · rename_i one
    exact .inl ⟨rfl, one⟩
  · exact .inr ⟨Nat.toDigits_ne_nil, fun c member => isDigit_of_mem_toDigits member,
      Nat.ofDigitChars_ten_toDigits⟩

theorem Counts.length_countText {digits : Text} {n : Nat} (counts : Counts digits n)
    : (countText n).length ≤ digits.length := by
  rw [countText]
  split
  · exact Nat.zero_le _
  · rename_i many
    rcases counts with ⟨-, one⟩ | ⟨some_, all, rfl⟩
    · exact absurd one many
    · have small := ofDigitChars_lt all 0
      rw [Nat.zero_add, Nat.one_mul] at small
      exact (Nat.length_toDigits_le_iff (by decide) (List.length_pos_iff.mpr some_)).mpr small

theorem print_hop {op : Char} (operator : isOperator op = true) (n : Nat)
    : (hop op n).print = op :: countText n := by
  rcases isOperator_iff.mp operator with rfl | rfl
  · rfl
  · rfl

theorem Walks.printed {suffix : Text} (walks : Walks suffix steps)
    : Walks (steps.flatMap AncestryStep.print) steps
      ∧ Text.len (steps.flatMap AncestryStep.print) ≤ suffix.len := by
  induction walks with
  | done => exact ⟨.done, Nat.le_refl _⟩
  | @step op digits rest n steps operator counts more ih =>
      obtain ⟨again, shorter⟩ := ih
      rw [List.flatMap_cons, print_hop operator, List.cons_append]
      refine ⟨.step operator (counts_countText n) again, ?_⟩
      have least : (countText n).len ≤ digits.len := by
        rw [len_of_isDigit (counts_countText n).digits, len_of_isDigit counts.digits]
        exact counts.length_countText
      rw [← List.singleton_append, Text.len_append, Text.len_append,
        ← List.singleton_append (l := digits ++ rest), Text.len_append, Text.len_append]
      omega

/-- What is written again of a selector selects the same, and is no longer. -/
theorem Selects.printed {text : Text}
    (selects : Selects algorithm text selector)
    : Selects algorithm selector.print selector ∧ selector.print.len ≤ text.len := by
  have digest {hex : Text} {raw : Bytes} (read : fromHexPairs hex = some raw)
      (sized : raw.length = algorithm.rawLen)
      : Selects algorithm (toHex raw) (.fullOid ⟨algorithm, raw⟩)
        ∧ (toHex raw).len ≤ hex.len := by
    refine ⟨.full (fromHexPairs_toHex raw) sized, ?_⟩
    obtain ⟨pairs, digits⟩ := fromHexPairs_length read
    rw [toHex_len, len_of_hex digits]
    exact Nat.le_of_eq pairs
  cases selects with
  | qualified read sized =>
      obtain ⟨again, shorter⟩ := digest read sized
      refine ⟨again, Nat.le_trans shorter ?_⟩
      rw [← List.singleton_append, Text.len_append, Text.len_append]
      omega
  | full read sized => exact digest read sized
  | «abbrev» digits least short => exact ⟨.abbrev digits least short, Nat.le_refl _⟩
  | fullRef name qualified free fits =>
      exact ⟨.fullRef name qualified free fits, Nat.le_refl _⟩
  | head => exact ⟨.head, Nat.le_refl _⟩
  | shortName name unqualified free apart lower fits =>
      exact ⟨.shortName name unqualified free apart lower fits, Nat.le_refl _⟩

-- What a name resolves to

/-- The refs that Git tries for a name. -/
def expansions (name : Text) : List Text :=
  [name, "refs/".toList ++ name, "refs/tags/".toList ++ name, "refs/heads/".toList ++ name,
    "refs/remotes/".toList ++ name, "refs/remotes/".toList ++ name ++ "/HEAD".toList]

/-- A text that passes the check of the namespace reaches it under no expansion. -/
theorem expansions_free {name : Text} (free : ¬reservedRefPrefix <+: name)
    (behind : ¬"gfs/".toList <+: name)
    : ∀ expansion ∈ expansions name, isReservedRef expansion = false := by
  have apart (c : Char) (other : c ≠ 'g') (rest : Text)
      : ¬reservedRefPrefix <+: "refs/".toList ++ c :: rest := by
    rw [show reservedRefPrefix = "refs/".toList ++ "gfs/".toList by decide,
      List.prefix_append_right_inj]
    rintro ⟨more, same⟩
    exact other (List.cons.inj same).1.symm
  intro expansion member
  rw [Bool.eq_false_iff, ne_eq, isReservedRef_iff]
  simp only [expansions, List.mem_cons, List.not_mem_nil, or_false] at member
  rcases member with rfl | rfl | rfl | rfl | rfl | rfl
  · exact free
  · rwa [show reservedRefPrefix = "refs/".toList ++ "gfs/".toList by decide,
      List.prefix_append_right_inj]
  · exact apart 't' (by decide) ("ags/".toList ++ name)
  · exact apart 'h' (by decide) ("eads/".toList ++ name)
  · exact apart 'r' (by decide) ("emotes/".toList ++ name)
  · exact apart 'r' (by decide) ("emotes/".toList ++ name ++ "/HEAD".toList)

theorem Selects.free {text : Text}
    (selects : Selects algorithm text selector)
    : ∀ expansion ∈ expansions selector.asStr, isReservedRef expansion = false := by
  have digit {text : Text} {c : Char} (other : hexVal c = none) (rest : Text)
      (digits : isHex text = true)
      : ¬c :: rest <+: text := by
    intro begins
    have some_ := (isHex_iff.mp digits).2 c (begins.subset List.mem_cons_self)
    rw [other] at some_
    cases some_
  cases selects with
  | qualified _ _ => exact @expansions_free [] (by decide) (by decide)
  | full _ _ => exact @expansions_free [] (by decide) (by decide)
  | «abbrev» digits _ _ =>
      exact expansions_free (digit (by decide) _ digits) (digit (by decide) _ digits)
  | fullRef _ qualified free _ => exact expansions_free free (not_gfs_of_refs qualified)
  | head => exact expansions_free (by decide) (by decide)
  | shortName _ unqualified free _ _ _ =>
      exact expansions_free
        (fun reserved => unqualified ((List.prefix_append _ _).trans reserved)) free

-- The closed grammar

theorem Walks.chars {suffix : Text} (walks : Walks suffix steps)
    : ∀ c ∈ suffix, isForbidden c = true → isOperator c = true := by
  induction walks with
  | done => exact fun c member => nomatch member
  | @step op digits rest n steps operator counts more ih =>
      intro c member forbidden
      rcases List.mem_cons.mp member with rfl | later
      · exact operator
      · rcases List.mem_append.mp later with digit | later
        · have plain : isForbidden c = false := by
            apply isForbidden_of_digit
            have bounds := counts.digits c digit
            simp only [Char.isDigit, ge_iff_le, Bool.and_eq_true, decide_eq_true_eq] at bounds
            have least : 48 ≤ c.toNat := bounds.1
            have most : c.toNat ≤ 57 := bounds.2
            rw [hexVal, if_pos ⟨least, most⟩]
            rfl
          rw [plain] at forbidden
          cases forbidden
        · exact ih c later forbidden

/-- The parts of an accepted string: Git forbids no character of its selector but the colon
behind an algorithm, and of its walk only the operators.
-/
def PlainParts (algorithm : HashAlgorithm) (input : Text) : Prop :=
  ∃ base suffix,
    input = base ++ suffix
    ∧ (∀ c ∈ suffix, isForbidden c = true → isOperator c = true)
    ∧ ((∀ c ∈ base, isForbidden c = false)
      ∨ ∃ hex,
          base = algorithm.name ++ ':' :: hex
          ∧ ∀ c ∈ algorithm.name ++ hex, isForbidden c = false)

/-- Parsing accepts exactly the closed grammar: strings of at most 512 bytes that spell a
selector and then a walk within the limit. What is accepted is written again as a string that
parses to the same, its selector reaches no reserved ref under Git's expansions, and its name
holds no character that Git forbids.
-/
theorem revisions_closed (algorithm : HashAlgorithm) (input : Text)
    : (∀ expression,
        RevisionExpression.parse input algorithm = .ok expression
        ↔ input.len ≤ maxRevisionSelectorBytes ∧ Spells algorithm input expression)
      ∧ ∀ expression,
          RevisionExpression.parse input algorithm = .ok expression
          → RevisionExpression.parse expression.print algorithm = .ok expression
            ∧ (∀ expansion ∈ expansions expression.base.asStr, isReservedRef expansion = false)
            ∧ PlainParts algorithm input := by
  refine ⟨fun expression => expression_eq_ok, ?_⟩
  intro expression parsed
  obtain ⟨fits, base, suffix, rfl, selects, walks, near⟩ := expression_eq_ok.mp parsed
  obtain ⟨selectsAgain, shorterBase⟩ := selects.printed
  obtain ⟨walksAgain, shorterSuffix⟩ := walks.printed
  refine ⟨?_, selects.free, base, suffix, rfl, walks.chars, selects.clean⟩
  refine expression_eq_ok.mpr ⟨?_, _, _, rfl, selectsAgain, walksAgain, near⟩
  rw [Text.len_append] at fits
  rw [RevisionExpression.print, Text.len_append]
  omega

theorem isName_main : IsName "main".toList :=
  isName_iff.mp ⟨by decide, by decide⟩

theorem selects_main : Selects .sha1 "main".toList (.shortName "main".toList) :=
  .shortName isName_main (by decide) (by decide) (by decide) ⟨'m', by decide, by decide⟩
    (by decide)

theorem parse_main_walk
    : RevisionExpression.parse "main~3^2".toList .sha1
      = .ok ⟨.shortName "main".toList, [.ancestor 3, .parent 2]⟩ := by
  refine expression_eq_ok.mpr ⟨by decide, "main".toList, "~3^2".toList, by decide, selects_main,
    ?_, by decide⟩
  have three : Counts ['3'] 3 := counts_countText 3
  have two : Counts ['2'] 2 := counts_countText 2
  exact .step (by decide : isOperator '~' = true) three
    (.step (by decide : isOperator '^' = true) two .done)

/-- Witness: a walk from a branch. -/
theorem main_walk_closed
    : RevisionExpression.parse
          (RevisionExpression.print ⟨.shortName "main".toList, [.ancestor 3, .parent 2]⟩) .sha1
        = .ok ⟨.shortName "main".toList, [.ancestor 3, .parent 2]⟩
      ∧ (∀ expansion ∈ expansions "main".toList, isReservedRef expansion = false)
      ∧ PlainParts .sha1 "main~3^2".toList :=
  (revisions_closed .sha1 "main~3^2".toList).2 _ parse_main_walk

theorem walks_zeros (n : Nat)
    : Walks (List.replicate n "~0".toList).flatten (List.replicate n (.ancestor 0)) := by
  induction n with
  | zero => exact .done
  | succ n ih =>
      rw [List.replicate_succ, List.replicate_succ, List.flatten_cons]
      have zero : Counts ['0'] 0 := counts_countText 0
      exact .step (by decide : isOperator '~' = true) zero ih

/-- A branch whose chain goes nowhere in 600 bytes is refused, a well-formed name in capitals is
refused, and a walk that is accepted holds a character that Git forbids.
-/
theorem grammar_is_narrower
    : (Spells .sha1 ("main".toList ++ (List.replicate 300 "~0".toList).flatten)
          ⟨.shortName "main".toList, List.replicate 300 (.ancestor 0)⟩
        ∧ ∀ expression,
            RevisionExpression.parse
                ("main".toList ++ (List.replicate 300 "~0".toList).flatten) .sha1
              ≠ .ok expression)
      ∧ (IsName "RELEASE".toList
        ∧ ∀ selector, RevisionSelector.parse "RELEASE".toList .sha1 ≠ .ok selector)
      ∧ '~' ∈ "main~3^2".toList
      ∧ isForbidden '~' = true
      ∧ RevisionExpression.parse "main~3^2".toList .sha1
        = .ok ⟨.shortName "main".toList, [.ancestor 3, .parent 2]⟩ := by
  refine ⟨⟨⟨_, _, rfl, selects_main, walks_zeros 300, ?_⟩, ?_⟩, ⟨?_, ?_⟩, by decide, by decide,
    parse_main_walk⟩
  · rw [distance, List.map_replicate, List.sum_replicate]
    decide
  · intro expression parsed
    have fits := (expression_eq_ok.mp parsed).1
    revert fits
    decide +kernel
  · exact isName_iff.mp ⟨by decide, by decide⟩
  · intro selector parsed
    have refused : RevisionSelector.parse "RELEASE".toList .sha1
        = .error (.pseudoRef "RELEASE".toList) := by
      decide
    rw [refused] at parsed
    cases parsed

end Gfs.Types
