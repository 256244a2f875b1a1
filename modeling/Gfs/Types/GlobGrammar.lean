import Gfs.Types.Glob

/-! The grammar that the globs of `gfs-types/src/glob.rs` are documented by: how a pattern is read,
and what its tokens match.
-/

namespace Gfs.Types

-- Patterns

/-- The members of a class and its closing bracket. A hyphen between two members makes a range of
them.
-/
inductive ClassRest : Bytes → List (UInt8 × UInt8) → Prop where
  | close : ClassRest [93] []
  | range {low high : UInt8} {text : Bytes} {ranges : List (UInt8 × UInt8)} (open_ : low ≠ 93)
      (last : high ≠ 93) (rest : ClassRest text ranges)
      : ClassRest (low :: 45 :: high :: text) ((low, high) :: ranges)
  | member {low : UInt8} {text : Bytes} {ranges : List (UInt8 × UInt8)} (open_ : low ≠ 93)
      (alone : ∀ high more, text = 45 :: high :: more → high = 93) (rest : ClassRest text ranges)
      : ClassRest (low :: text) ((low, low) :: ranges)

/-- A class behind its opening bracket. A bracket that would close it at once is a member. -/
inductive ClassBody (negated : Bool) : Bytes → Token → Prop where
  | bracket {text : Bytes} {ranges : List (UInt8 × UInt8)} (rest : ClassRest text ranges)
      : ClassBody negated (93 :: text) (.oneOf negated ((93, 93) :: ranges))
  | plain {text : Bytes} {ranges : List (UInt8 × UInt8)} (other : text.head? ≠ some 93)
      (rest : ClassRest text ranges)
      : ClassBody negated text (.oneOf negated ranges)

/-- A class behind its opening bracket, negated where a `!` or a `^` comes first. -/
inductive IsClass : Bytes → Token → Prop where
  | negated {mark : UInt8} {text : Bytes} {token : Token} (marks : mark = 33 ∨ mark = 94)
      (body : ClassBody true text token)
      : IsClass (mark :: text) token
  | plain {text : Bytes} {token : Token} (other : ∀ mark ∈ text.head?, mark ≠ 33 ∧ mark ≠ 94)
      (body : ClassBody false text token)
      : IsClass text token

/-- How a pattern reads. A `**` takes the separator behind it; a bracket that opens no class and a
backslash at the end are literal.
-/
inductive Reads : Bytes → List Token → Prop where
  | done : Reads [] []
  | escaped (byte : UInt8) {rest : Bytes} {tokens : List Token} (more : Reads rest tokens)
      : Reads (92 :: byte :: rest) (.byte byte :: tokens)
  | anyByte {rest : Bytes} {tokens : List Token} (more : Reads rest tokens)
      : Reads (63 :: rest) (.anyByte :: tokens)
  | doubleStarSlash {rest : Bytes} {tokens : List Token} (more : Reads rest tokens)
      : Reads (42 :: 42 :: 47 :: rest) (.doubleStar :: tokens)
  | doubleStar {rest : Bytes} {tokens : List Token} (other : rest.head? ≠ some 47)
      (more : Reads rest tokens)
      : Reads (42 :: 42 :: rest) (.doubleStar :: tokens)
  | star {rest : Bytes} {tokens : List Token} (single : rest.head? ≠ some 42)
      (more : Reads rest tokens)
      : Reads (42 :: rest) (.star :: tokens)
  | oneOf {text rest : Bytes} {token : Token} {tokens : List Token} (isClass : IsClass text token)
      (more : Reads rest tokens)
      : Reads (91 :: (text ++ rest)) (token :: tokens)
  | bracket {rest : Bytes} {tokens : List Token}
      (unclosed : ∀ text token, IsClass text token → ¬text <+: rest) (more : Reads rest tokens)
      : Reads (91 :: rest) (.byte 91 :: tokens)
  | backslash : Reads [92] [.byte 92]
  | byte {byte : UInt8} {rest : Bytes} {tokens : List Token} (plain : byte ∉ [92, 63, 42, 91])
      (more : Reads rest tokens)
      : Reads (byte :: rest) (.byte byte :: tokens)

theorem ClassRest.ne_nil {text : Bytes} {ranges : List (UInt8 × UInt8)}
    (rest : ClassRest text ranges) : text ≠ [] := by
  cases rest <;> exact List.cons_ne_nil _ _

theorem classRanges_close (rest : Bytes) : classRanges (93 :: rest) = some ([], rest) := by
  rw [classRanges.eq_def]
  exact if_pos rfl

theorem classRanges_range {low high : UInt8} (open_ : low ≠ 93) (last : high ≠ 93) (rest : Bytes)
    : classRanges (low :: 45 :: high :: rest)
      = (classRanges rest).map (fun found => ((low, high) :: found.1, found.2)) := by
  rw [classRanges.eq_def]
  simp only [if_neg open_, if_neg last]

variable {rest : Bytes} {fuel : Nat}

theorem classRanges_member {low : UInt8} (open_ : low ≠ 93)
    (alone : ∀ high more, rest = 45 :: high :: more → high = 93)
    : classRanges (low :: rest)
      = (classRanges rest).map (fun found => ((low, low) :: found.1, found.2)) := by
  rw [classRanges.eq_def]
  simp only [if_neg open_]
  split
  · rename_i high more
    rw [if_pos (alone high more rfl)]
  · rfl

theorem ClassRest.read {text : Bytes} {ranges : List (UInt8 × UInt8)} (rest : ClassRest text ranges)
    (more : Bytes)
    : classRanges (text ++ more) = some (ranges, more) := by
  induction rest with
  | close => exact classRanges_close more
  | range open_ last _ ih =>
      rw [List.cons_append, List.cons_append, List.cons_append, classRanges_range open_ last, ih]
      rfl
  | @member low text ranges open_ alone rest ih =>
      rw [List.cons_append, classRanges_member open_, ih]
      · rfl
      · -- What looks like a range ends at the bracket, so the hyphen is a member.
        intro high behind same
        cases text with
        | nil => exact absurd rfl rest.ne_nil
        | cons first text =>
            cases text with
            | nil =>
                cases rest with
                | close => cases same
                | member _ _ rest => exact absurd rfl rest.ne_nil
            | cons second text =>
                cases same
                exact alone _ _ rfl

theorem classRanges_eq_some {input : Bytes} {ranges : List (UInt8 × UInt8)} {more : Bytes}
    : classRanges input = some (ranges, more)
      ↔ ∃ text, input = text ++ more ∧ ClassRest text ranges := by
  constructor
  · intro read
    induction size : input.length using Nat.strong_induction_on generalizing input ranges with
    | _ n ih =>
        subst size
        -- What follows the first member or range reads as a class too.
        have deeper {rest : Bytes} (first : UInt8 × UInt8) (less : rest.length < input.length)
            (read : (classRanges rest).map (fun found => (first :: found.1, found.2))
              = some (ranges, more))
            : ∃ text others,
                rest = text ++ more ∧ ClassRest text others ∧ ranges = first :: others := by
          obtain ⟨⟨others, behind⟩, inner, same⟩ := Option.map_eq_some_iff.mp read
          rw [Prod.mk.injEq] at same
          obtain ⟨rfl, rfl⟩ := same
          obtain ⟨text, split_, rest⟩ := ih _ less inner rfl
          exact ⟨text, others, split_, rest, rfl⟩
        cases input with
        | nil =>
            rw [classRanges] at read
            cases read
        | cons low input =>
            by_cases closes : low = 93
            · rw [closes, classRanges_close, Option.some.injEq, Prod.mk.injEq] at read
              obtain ⟨rfl, rfl⟩ := read
              exact ⟨[93], by rw [closes]; rfl, .close⟩
            · by_cases range : ∃ high behind, input = 45 :: high :: behind ∧ high ≠ 93
              · obtain ⟨high, behind, rfl, last⟩ := range
                rw [classRanges_range closes last] at read
                obtain ⟨text, others, rfl, rest, rfl⟩ := deeper (low, high) (by simp; omega) read
                exact ⟨low :: 45 :: high :: text, rfl, .range closes last rest⟩
              · have alone : ∀ high behind, input = 45 :: high :: behind → high = 93 := by
                  intro high behind same
                  by_contra last
                  exact range ⟨high, behind, same, last⟩
                rw [classRanges_member closes alone] at read
                obtain ⟨text, others, rfl, rest, rfl⟩ := deeper (low, low) (by simp) read
                refine ⟨low :: text, rfl, .member closes (fun high behind same => ?_) rest⟩
                exact alone high (behind ++ more) (by rw [same]; rfl)
  · rintro ⟨text, rfl, rest⟩
    exact rest.read more

/-- A class behind its opening bracket and a mark that negates it. -/
def parseBody (negated : Bool) (body : Bytes) : Option (Token × Bytes) :=
  match body with
  | 93 :: rest =>
      (classRanges rest).map (fun found => (.oneOf negated ((93, 93) :: found.1), found.2))
  | rest => (classRanges rest).map (fun found => (.oneOf negated found.1, found.2))

theorem parseBody_eq_some {negated : Bool} {input more : Bytes} {token : Token}
    : parseBody negated input = some (token, more)
      ↔ ∃ text, input = text ++ more ∧ ClassBody negated text token := by
  constructor
  · intro read
    rw [parseBody.eq_def] at read
    split at read
    · obtain ⟨⟨ranges, behind⟩, inner, same⟩ := Option.map_eq_some_iff.mp read
      rw [Prod.mk.injEq] at same
      obtain ⟨rfl, rfl⟩ := same
      obtain ⟨text, rfl, rest⟩ := classRanges_eq_some.mp inner
      exact ⟨93 :: text, rfl, .bracket rest⟩
    · rename_i other
      obtain ⟨⟨ranges, behind⟩, inner, same⟩ := Option.map_eq_some_iff.mp read
      rw [Prod.mk.injEq] at same
      obtain ⟨rfl, rfl⟩ := same
      obtain ⟨text, rfl, rest⟩ := classRanges_eq_some.mp inner
      refine ⟨text, rfl, .plain (fun first => ?_) rest⟩
      obtain ⟨tail, rfl⟩ := List.head?_eq_some_iff.mp first
      exact other _ rfl
  · rintro ⟨text, rfl, body⟩
    cases body with
    | bracket rest =>
        rw [List.cons_append, parseBody, rest.read]
        rfl
    | plain other rest =>
        rw [parseBody.eq_def]
        split
        · rename_i same
          obtain ⟨first, text, rfl⟩ := List.exists_cons_of_ne_nil rest.ne_nil
          cases same
          exact absurd rfl other
        · rw [rest.read]
          rfl

/-- A class reads as the grammar says, up to its closing bracket. -/
theorem parseClass_eq_some {input more : Bytes} {token : Token}
    : parseClass input = some (token, more)
      ↔ ∃ text, input = text ++ more ∧ IsClass text token := by
  have marked {mark : UInt8} {rest : Bytes} (marks : mark = 33 ∨ mark = 94)
      : parseClass (mark :: rest) = parseBody true rest := by
    rcases marks with rfl | rfl <;> rfl
  have unmarked {input : Bytes} (other : ∀ mark ∈ input.head?, mark ≠ 33 ∧ mark ≠ 94)
      : parseClass input = parseBody false input := by
    rw [parseClass.eq_def]
    split
    rename_i same
    split at same
    · exact absurd rfl (other 33 rfl).1
    · exact absurd rfl (other 94 rfl).2
    · cases same
      rfl
  constructor
  · intro read
    by_cases other : ∀ mark ∈ input.head?, mark ≠ 33 ∧ mark ≠ 94
    · rw [unmarked other] at read
      obtain ⟨text, rfl, body⟩ := parseBody_eq_some.mp read
      refine ⟨text, rfl, .plain (fun mark first => other mark ?_) body⟩
      rw [Option.mem_def] at first ⊢
      rw [List.head?_append, first, Option.some_or]
    · push Not at other
      obtain ⟨mark, first, marks⟩ := other
      obtain ⟨rest, rfl⟩ := List.head?_eq_some_iff.mp first
      have marks : mark = 33 ∨ mark = 94 := by
        by_cases bang : mark = 33
        · exact .inl bang
        · exact .inr (marks bang)
      rw [marked marks] at read
      obtain ⟨text, rfl, body⟩ := parseBody_eq_some.mp read
      exact ⟨mark :: text, rfl, .negated marks body⟩
  · rintro ⟨text, rfl, isClass⟩
    cases isClass with
    | negated marks body =>
        rw [List.cons_append, marked marks, parseBody_eq_some]
        exact ⟨_, rfl, body⟩
    | plain other body =>
        rw [unmarked, parseBody_eq_some]
        · exact ⟨_, rfl, body⟩
        · intro mark first
          refine other mark ?_
          have some_ : text ≠ [] := by
            rintro rfl
            cases body with
            | plain _ rest => exact rest.ne_nil rfl
          obtain ⟨head, tail, rfl⟩ := List.exists_cons_of_ne_nil some_
          exact first

-- Reading a pattern

theorem tokensOf_nil (fuel : Nat) : tokensOf fuel [] = [] := by
  cases fuel <;> rfl

/-- What a star that no star follows, two that no slash follows, and a plain byte are read as. -/
theorem tokensOf_cons (fuel : Nat) (byte : UInt8) (rest : Bytes)
    : (rest.head? ≠ some 47
        → tokensOf (fuel + 1) (42 :: 42 :: rest) = .doubleStar :: tokensOf fuel rest)
      ∧ (rest.head? ≠ some 42 → tokensOf (fuel + 1) (42 :: rest) = .star :: tokensOf fuel rest)
      ∧ (byte ∉ [92, 63, 42, 91]
        → tokensOf (fuel + 1) (byte :: rest) = .byte byte :: tokensOf fuel rest) := by
  refine ⟨fun other => ?_, fun single => ?_, fun plain => ?_⟩
  · cases rest with
    | nil => rfl
    | cons first rest =>
        rw [tokensOf]
        rintro tail ⟨⟩
        exact other rfl
  · cases rest with
    | nil => rfl
    | cons first rest =>
        rw [tokensOf]
        · rintro tail ⟨⟩
          exact single rfl
        · rintro tail ⟨⟩
          exact single rfl
  · simp only [List.mem_cons, List.not_mem_nil, or_false, not_or] at plain
    obtain ⟨notBackslash, notQuestion, notStar, notBracket⟩ := plain
    rw [tokensOf]
    · exact fun _ _ same _ => notBackslash same
    · exact notQuestion
    · exact fun _ same _ => notStar same
    · exact fun _ same _ => notStar same
    · exact notStar
    · exact notBracket

theorem tokensOf_doubleStar (other : rest.head? ≠ some 47)
    : tokensOf (fuel + 1) (42 :: 42 :: rest) = .doubleStar :: tokensOf fuel rest :=
  (tokensOf_cons fuel 0 rest).1 other

theorem tokensOf_star (single : rest.head? ≠ some 42)
    : tokensOf (fuel + 1) (42 :: rest) = .star :: tokensOf fuel rest :=
  (tokensOf_cons fuel 0 rest).2.1 single

theorem tokensOf_byte {byte : UInt8} (plain : byte ∉ [92, 63, 42, 91])
    : tokensOf (fuel + 1) (byte :: rest) = .byte byte :: tokensOf fuel rest :=
  (tokensOf_cons fuel byte rest).2.2 plain

theorem tokensOf_class (fuel : Nat) (rest : Bytes)
    : tokensOf (fuel + 1) (91 :: rest)
      = match parseClass rest with
        | some (token, more) => token :: tokensOf fuel more
        | none => .byte 91 :: tokensOf fuel rest :=
  rfl

theorem reads_tokensOf {body : Bytes} (enough : body.length ≤ fuel)
    : Reads body (tokensOf fuel body) := by
  induction fuel generalizing body with
  | zero =>
      rw [List.length_eq_zero_iff.mp (Nat.le_zero.mp enough)]
      exact .done
  | succ fuel ih =>
      cases body with
      | nil => exact .done
      | cons byte rest =>
          simp only [List.length_cons] at enough
          by_cases plain : byte ∉ [92, 63, 42, 91]
          · rw [tokensOf_byte plain]
            exact .byte plain (ih (by omega))
          · simp only [List.mem_cons, List.not_mem_nil, or_false, not_not] at plain
            rcases plain with rfl | rfl | rfl | rfl
            · cases rest with
              | nil =>
                  have alone : tokensOf (fuel + 1) [92] = [.byte 92] := by
                    cases fuel <;> rfl
                  rw [alone]
                  exact .backslash
              | cons next rest =>
                  simp only [List.length_cons] at enough
                  exact .escaped next (ih (by omega))
            · exact .anyByte (ih (by omega))
            · by_cases single : rest.head? = some 42
              · obtain ⟨rest, rfl⟩ := List.head?_eq_some_iff.mp single
                simp only [List.length_cons] at enough
                by_cases slashed : rest.head? = some 47
                · obtain ⟨rest, rfl⟩ := List.head?_eq_some_iff.mp slashed
                  simp only [List.length_cons] at enough
                  exact .doubleStarSlash (ih (by omega))
                · rw [tokensOf_doubleStar slashed]
                  exact .doubleStar slashed (ih (by omega))
              · rw [tokensOf_star single]
                exact .star single (ih (by omega))
            · cases read : parseClass rest with
              | some found =>
                  obtain ⟨token, more⟩ := found
                  obtain ⟨text, rfl, isClass⟩ := parseClass_eq_some.mp read
                  rw [tokensOf_class, read]
                  simp only [List.length_append] at enough
                  exact .oneOf isClass (ih (by omega))
              | none =>
                  rw [tokensOf_class, read]
                  refine .bracket (fun text token isClass front => ?_) (ih (by omega))
                  obtain ⟨more, rfl⟩ := front
                  rw [parseClass_eq_some.mpr ⟨text, rfl, isClass⟩] at read
                  cases read

/-- A pattern reads as the tokens it is compiled to, and as no others. -/
theorem reads_iff {body : Bytes} {tokens : List Token} (enough : body.length ≤ fuel)
    : Reads body tokens ↔ tokens = tokensOf fuel body := by
  constructor
  · intro reads
    induction reads generalizing fuel with
    | done => rw [tokensOf_nil]
    | escaped byte _ ih =>
        cases fuel with
        | zero => cases enough
        | succ fuel =>
            simp only [List.length_cons] at enough
            exact congrArg (Token.byte byte :: ·) (ih (by omega))
    | anyByte _ ih =>
        cases fuel with
        | zero => cases enough
        | succ fuel =>
            exact congrArg (Token.anyByte :: ·) (ih (Nat.le_of_succ_le_succ enough))
    | doubleStarSlash _ ih =>
        cases fuel with
        | zero => cases enough
        | succ fuel =>
            simp only [List.length_cons] at enough
            exact congrArg (Token.doubleStar :: ·) (ih (by omega))
    | doubleStar other _ ih =>
        cases fuel with
        | zero => cases enough
        | succ fuel =>
            simp only [List.length_cons] at enough
            rw [tokensOf_doubleStar other, ← ih (by omega)]
    | star single _ ih =>
        cases fuel with
        | zero => cases enough
        | succ fuel => rw [tokensOf_star single, ← ih (Nat.le_of_succ_le_succ enough)]
    | @oneOf text rest token tokens isClass _ ih =>
        cases fuel with
        | zero => cases enough
        | succ fuel =>
            rw [tokensOf_class, parseClass_eq_some.mpr ⟨text, rfl, isClass⟩]
            simp only [List.length_cons, List.length_append] at enough
            dsimp only
            rw [← ih (by omega)]
    | @bracket rest tokens unclosed _ ih =>
        cases fuel with
        | zero => cases enough
        | succ fuel =>
            have none_ : parseClass rest = none := by
              by_contra some_
              obtain ⟨⟨token, more⟩, read⟩ := Option.ne_none_iff_exists'.mp some_
              obtain ⟨text, rfl, isClass⟩ := parseClass_eq_some.mp read
              exact unclosed text token isClass (List.prefix_append _ _)
            rw [tokensOf_class, none_, ← ih (Nat.le_of_succ_le_succ enough)]
    | backslash =>
        cases fuel with
        | zero => cases enough
        | succ fuel => exact congrArg (Token.byte 92 :: ·) (tokensOf_nil fuel).symm
    | byte plain _ ih =>
        cases fuel with
        | zero => cases enough
        | succ fuel => rw [tokensOf_byte plain, ← ih (Nat.le_of_succ_le_succ enough)]
  · rintro rfl
    exact reads_tokensOf enough

-- Matching

/-- A place in a path that is inside no component. -/
def Boundary (before after : Bytes) : Prop :=
  before = [] ∨ after = [] ∨ before.getLast? = some slash ∨ after.head? = some slash

/-- A part of a path that cuts no component: it is empty, or has a boundary on either side. -/
def Whole (before part after : Bytes) : Prop :=
  part = [] ∨ (Boundary before (part ++ after) ∧ Boundary (before ++ part) after)

/-- What tokens match, behind what was matched before. What `**` may take is given. -/
inductive Denotes (takes : Bytes → Bytes → Bytes → Prop) : Bytes → List Token → Bytes → Prop where
  | done {before : Bytes} : Denotes takes before [] []
  | byte {before rest : Bytes} {tokens : List Token} {byte : UInt8}
      (more : Denotes takes (before ++ [byte]) tokens rest)
      : Denotes takes before (.byte byte :: tokens) (byte :: rest)
  | anyByte {before rest : Bytes} {tokens : List Token} {byte : UInt8} (other : byte ≠ slash)
      (more : Denotes takes (before ++ [byte]) tokens rest)
      : Denotes takes before (.anyByte :: tokens) (byte :: rest)
  | oneOf {before rest : Bytes} {tokens : List Token} {byte : UInt8} {negated : Bool}
      {ranges : List (UInt8 × UInt8)} (other : byte ≠ slash)
      (among : (∃ range ∈ ranges, range.1 ≤ byte ∧ byte ≤ range.2) ↔ negated = false)
      (more : Denotes takes (before ++ [byte]) tokens rest)
      : Denotes takes before (.oneOf negated ranges :: tokens) (byte :: rest)
  | star {before run rest : Bytes} {tokens : List Token} (within : slash ∉ run)
      (more : Denotes takes (before ++ run) tokens rest)
      : Denotes takes before (.star :: tokens) (run ++ rest)
  | doubleStar {before part rest : Bytes} {tokens : List Token} (taken : takes before part rest)
      (more : Denotes takes (before ++ part) tokens rest)
      : Denotes takes before (.doubleStar :: tokens) (part ++ rest)

theorem Denotes.mono {takes takes' : Bytes → Bytes → Bytes → Prop}
    (more : ∀ before part after, takes before part after → takes' before part after)
    {before subject : Bytes} {tokens : List Token} (denotes : Denotes takes before tokens subject)
    : Denotes takes' before tokens subject := by
  induction denotes with
  | done => exact .done
  | byte _ ih => exact .byte ih
  | anyByte other _ ih => exact .anyByte other ih
  | oneOf other among _ ih => exact .oneOf other among ih
  | star within _ ih => exact .star within ih
  | doubleStar taken _ ih => exact .doubleStar (more _ _ _ taken) ih

namespace Glob

/-- What `*` may leave is what is behind a run without a slash. -/
theorem mem_starRests {input rest : Bytes}
    : rest ∈ starRests input ↔ ∃ run, input = run ++ rest ∧ slash ∉ run := by
  induction input with
  | nil =>
      rw [starRests, List.mem_singleton]
      constructor
      · rintro rfl
        exact ⟨[], rfl, List.not_mem_nil⟩
      · rintro ⟨run, same, -⟩
        exact (List.append_eq_nil_iff.mp same.symm).2
  | cons byte input ih =>
      rw [starRests, List.mem_cons]
      constructor
      · rintro (rfl | later)
        · exact ⟨[], rfl, List.not_mem_nil⟩
        · split at later
          · cases later
          · rename_i other
            obtain ⟨run, rfl, within⟩ := ih.mp later
            refine ⟨byte :: run, rfl, ?_⟩
            rw [List.mem_cons, not_or]
            exact ⟨Ne.symm other, within⟩
      · rintro ⟨run, same, within⟩
        cases run with
        | nil => exact .inl same.symm
        | cons first run =>
            cases same
            rw [List.mem_cons, not_or] at within
            rw [if_neg (Ne.symm within.1)]
            exact .inr (ih.mpr ⟨run, rfl, within.2⟩)

/-- The matcher finds what the tokens match where `**` takes any part. -/
theorem matchesTokens_iff {tokens : List Token} {input : Bytes} (before : Bytes)
    : matchesTokens tokens input = true
      ↔ Denotes (fun _ _ _ => True) before tokens input := by
  induction tokens generalizing before input with
  | nil =>
      rw [matchesTokens, List.isEmpty_iff]
      constructor
      · rintro rfl
        exact .done
      · rintro ⟨⟩
        rfl
  | cons token tokens ih =>
      cases token with
      | byte want =>
          cases input with
          | nil => exact iff_of_false (by simp [matchesTokens]) (fun denotes => nomatch denotes)
          | cons byte input =>
              rw [matchesTokens, Bool.and_eq_true, decide_eq_true_eq, ih (before ++ [byte])]
              constructor
              · rintro ⟨rfl, more⟩
                exact .byte more
              · rintro (_ | more)
                exact ⟨rfl, more⟩
      | anyByte =>
          cases input with
          | nil => exact iff_of_false (by simp [matchesTokens]) (fun denotes => nomatch denotes)
          | cons byte input =>
              rw [matchesTokens, Bool.and_eq_true, decide_eq_true_eq, ih (before ++ [byte])]
              constructor
              · rintro ⟨other, more⟩
                exact .anyByte other more
              · rintro (_ | _ | ⟨other, more⟩)
                exact ⟨other, more⟩
      | star =>
          simp only [matchesTokens, List.any_eq_true, mem_starRests]
          constructor
          · rintro ⟨rest, ⟨run, rfl, within⟩, more⟩
            exact .star within ((ih (before ++ run)).mp more)
          · intro denotes
            cases denotes with
            | @star _ run rest _ within more =>
                exact ⟨rest, ⟨run, rfl, within⟩, (ih (before ++ run)).mpr more⟩
      | doubleStar =>
          simp only [matchesTokens, List.any_eq_true, List.mem_tails]
          constructor
          · rintro ⟨rest, ⟨part, rfl⟩, more⟩
            exact .doubleStar trivial ((ih (before ++ part)).mp more)
          · intro denotes
            cases denotes with
            | @doubleStar _ part rest _ _ more =>
                exact ⟨rest, ⟨part, rfl⟩, (ih (before ++ part)).mpr more⟩
      | oneOf negated ranges =>
          cases input with
          | nil => exact iff_of_false (by simp [matchesTokens]) (fun denotes => nomatch denotes)
          | cons byte input =>
              have among
                  : (ranges.any (fun range => range.1 ≤ byte && byte ≤ range.2) ≠ negated)
                    ↔ ((∃ range ∈ ranges, range.1 ≤ byte ∧ byte ≤ range.2) ↔ negated = false) := by
                have inside
                    : ranges.any (fun range => range.1 ≤ byte && byte ≤ range.2) = true
                      ↔ ∃ range ∈ ranges, range.1 ≤ byte ∧ byte ≤ range.2 := by
                  simp [List.any_eq_true]
                rw [← inside]
                cases ranges.any (fun range => range.1 ≤ byte && byte ≤ range.2) <;> cases negated
                  <;> decide
              rw [matchesTokens]
              simp only [Bool.and_eq_true, decide_eq_true_eq, ih (before ++ [byte]), among]
              constructor
              · rintro ⟨⟨other, member⟩, more⟩
                exact .oneOf other member more
              · intro denotes
                cases denotes with
                | oneOf other member more => exact ⟨⟨other, member⟩, more⟩

end Glob

-- Patterns and paths

namespace GlobPattern

variable (pattern : Bytes)

/-- A pattern with a trailing slash is for directories. -/
def directoryOnly : Prop :=
  pattern.getLast? = some slash

/-- A pattern without its trailing slash. -/
def trimmed : Bytes :=
  if pattern.getLast? = some slash then pattern.dropLast else pattern

/-- A pattern with a leading slash is anchored. -/
def anchored : Prop :=
  (trimmed pattern).head? = some slash

/-- A pattern without its leading and its trailing slash. -/
def body : Bytes :=
  if (trimmed pattern).head? = some slash then (trimmed pattern).tail else trimmed pattern

instance : Decidable (directoryOnly pattern) :=
  inferInstanceAs (Decidable (pattern.getLast? = some slash))

instance : Decidable (anchored pattern) :=
  inferInstanceAs (Decidable ((trimmed pattern).head? = some slash))

/-- A pattern that is not anchored and has no slash inside is for every component. -/
def nameOnly : Prop :=
  ¬anchored pattern ∧ slash ∉ body pattern

/-- What a path offers a pattern to match: its components or itself, and to a pattern for
directories those of them that are directories.
-/
inductive Offers (path : Bytes) : Bytes → Prop where
  | component {component : Bytes} (names : nameOnly pattern) (files : ¬directoryOnly pattern)
      (member : component ∈ path.splitOn slash)
      : Offers path component
  | interior {component : Bytes} (names : nameOnly pattern) (directories : directoryOnly pattern)
      (member : component ∈ (path.splitOn slash).dropLast)
      : Offers path component
  | whole (paths : ¬nameOnly pattern) (files : ¬directoryOnly pattern) : Offers path path
  | directory {front : Bytes} (paths : ¬nameOnly pattern) (directories : directoryOnly pattern)
      (above : front ++ [slash] <+: path)
      : Offers path front

/-- A path matches a pattern: what the pattern reads as denotes something the path offers, with
whole components for every `**`.
-/
def Means (path : Bytes) : Prop :=
  ∃ tokens subject,
    Reads (body pattern) tokens ∧ Offers pattern path subject ∧ Denotes Whole [] tokens subject

/-- A path offers a match in which a `**` may cut a component, or is itself matched by a pattern for
directories.
-/
def Reaches (path : Bytes) : Prop :=
  ∃ tokens subject,
    Reads (body pattern) tokens
    ∧ (Offers pattern path subject
      ∨ (¬nameOnly pattern ∧ directoryOnly pattern ∧ subject = path))
    ∧ Denotes (fun _ _ _ => True) [] tokens subject

variable {pattern}

theorem tokens_fromBytes
    : (Glob.fromBytes pattern).tokens = tokensOf (body pattern).length (body pattern) := by
  rw [Glob.fromBytes, body, trimmed]

theorem nameOnly_fromBytes : (Glob.fromBytes pattern).nameOnly = true ↔ nameOnly pattern := by
  rw [Glob.fromBytes, nameOnly, anchored, body, trimmed]
  by_cases directories : pattern.getLast? = some slash
  · simp [directories]
  · simp [directories]

theorem directoryOnly_fromBytes
    : (Glob.fromBytes pattern).directoryOnly = true ↔ directoryOnly pattern :=
  decide_eq_true_iff

theorem any_directories {path : Bytes} {p : Bytes → Bool}
    : ((List.range path.length).filter (fun index => path[index]? = some slash)).any
        (fun index => p (path.take index)) = true
      ↔ ∃ front, front ++ [slash] <+: path ∧ p front = true := by
  simp only [List.any_eq_true, List.mem_filter, List.mem_range, decide_eq_true_eq]
  constructor
  · rintro ⟨index, ⟨inside, here⟩, found⟩
    refine ⟨path.take index, ⟨path.drop (index + 1), ?_⟩, found⟩
    rw [List.getElem?_eq_getElem inside, Option.some.injEq] at here
    rw [List.append_assoc, List.singleton_append, ← here, List.cons_getElem_drop_succ]
    exact List.take_append_drop index path
  · rintro ⟨front, ⟨rest, rfl⟩, found⟩
    refine ⟨front.length, ⟨by simp, by simp⟩, ?_⟩
    rwa [List.append_assoc, List.take_left]

/-- A compiled pattern matches exactly the paths it reaches. -/
theorem matchesPath_iff {path : Bytes}
    : (Glob.fromBytes pattern).matchesPath path = true ↔ Reaches pattern path := by
  have reads : Reads (body pattern) (Glob.fromBytes pattern).tokens := by
    rw [tokens_fromBytes]
    exact reads_tokensOf (Nat.le_refl _)
  have unique {tokens : List Token} (other : Reads (body pattern) tokens)
      : tokens = (Glob.fromBytes pattern).tokens := by
    rw [tokens_fromBytes]
    exact (reads_iff (Nat.le_refl _)).mp other
  have reaches_iff
      : Reaches pattern path
        ↔ ∃ subject,
            (Offers pattern path subject
              ∨ (¬nameOnly pattern ∧ directoryOnly pattern ∧ subject = path))
            ∧ Glob.matchesTokens (Glob.fromBytes pattern).tokens subject = true := by
    constructor
    · rintro ⟨tokens, subject, other, offered, denotes⟩
      rw [unique other] at denotes
      exact ⟨subject, offered, (Glob.matchesTokens_iff []).mpr denotes⟩
    · rintro ⟨subject, offered, found⟩
      exact ⟨_, subject, reads, offered, (Glob.matchesTokens_iff []).mp found⟩
  rw [reaches_iff, Glob.matchesPath]
  by_cases names : nameOnly pattern
  · rw [if_pos (nameOnly_fromBytes.mpr names)]
    by_cases directories : directoryOnly pattern
    · rw [if_pos (directoryOnly_fromBytes.mpr directories), List.any_eq_true]
      constructor
      · rintro ⟨component, member, found⟩
        exact ⟨component, .inl (.interior names directories member), found⟩
      · rintro ⟨subject, offered | ⟨paths, -, -⟩, found⟩
        · cases offered with
          | component _ files => exact absurd directories files
          | interior _ _ member => exact ⟨subject, member, found⟩
          | whole paths => exact absurd names paths
          | directory paths => exact absurd names paths
        · exact absurd names paths
    · rw [if_neg fun only => directories (directoryOnly_fromBytes.mp only), List.any_eq_true]
      constructor
      · rintro ⟨component, member, found⟩
        exact ⟨component, .inl (.component names directories member), found⟩
      · rintro ⟨subject, offered | ⟨paths, -, -⟩, found⟩
        · cases offered with
          | component _ _ member => exact ⟨subject, member, found⟩
          | interior _ only => exact absurd only directories
          | whole paths => exact absurd names paths
          | directory paths => exact absurd names paths
        · exact absurd names paths
  · rw [if_neg fun only => names (nameOnly_fromBytes.mp only)]
    by_cases directories : directoryOnly pattern
    · rw [if_pos (directoryOnly_fromBytes.mpr directories), Bool.or_eq_true, any_directories]
      constructor
      · rintro (found | ⟨front, above, found⟩)
        · exact ⟨path, .inr ⟨names, directories, rfl⟩, found⟩
        · exact ⟨front, .inl (.directory names directories above), found⟩
      · rintro ⟨subject, offered | ⟨-, -, rfl⟩, found⟩
        · cases offered with
          | component only => exact absurd only names
          | interior only => exact absurd only names
          | whole _ files => exact absurd directories files
          | directory _ _ above => exact .inr ⟨subject, above, found⟩
        · exact .inl found
    · rw [if_neg fun only => directories (directoryOnly_fromBytes.mp only)]
      constructor
      · intro found
        exact ⟨path, .inl (.whole names directories), found⟩
      · rintro ⟨subject, offered | ⟨-, only, -⟩, found⟩
        · cases offered with
          | component only => exact absurd only names
          | interior only => exact absurd only names
          | whole => exact found
          | directory _ only => exact absurd only directories
        · exact absurd only directories

theorem reaches_of_means {path : Bytes} (means : Means pattern path) : Reaches pattern path := by
  obtain ⟨tokens, subject, reads, offered, denotes⟩ := means
  exact ⟨tokens, subject, reads, .inl offered, denotes.mono fun _ _ _ _ => trivial⟩

-- Bounded patterns

/-- Every `**` stands at the start or behind a slash, and at the end or before a `*`. The flag says
whether the tokens stand so.
-/
inductive Bounded : Bool → List Token → Prop where
  | done {starts : Bool} : Bounded starts []
  | byte {starts : Bool} {byte : UInt8} {tokens : List Token}
      (more : Bounded (decide (byte = slash)) tokens)
      : Bounded starts (.byte byte :: tokens)
  | anyByte {starts : Bool} {tokens : List Token} (more : Bounded false tokens)
      : Bounded starts (.anyByte :: tokens)
  | oneOf {starts negated : Bool} {ranges : List (UInt8 × UInt8)} {tokens : List Token}
      (more : Bounded false tokens)
      : Bounded starts (.oneOf negated ranges :: tokens)
  | star {starts : Bool} {tokens : List Token} (more : Bounded false tokens)
      : Bounded starts (.star :: tokens)
  | last : Bounded true [.doubleStar]
  | doubleStar {tokens : List Token} (more : Bounded false tokens)
      : Bounded true (.doubleStar :: .star :: tokens)

/-- What matches with any parts for bounded `**` matches with whole components for them. -/
theorem Bounded.whole {starts : Bool} {tokens : List Token} (bounded : Bounded starts tokens)
    {before subject : Bytes}
    (start : starts = true → before = [] ∨ before.getLast? = some slash)
    (denotes : Denotes (fun _ _ _ => True) before tokens subject)
    : Denotes Whole before tokens subject := by
  induction bounded generalizing before subject with
  | done =>
      cases denotes
      exact .done
  | byte _ ih =>
      cases denotes with
      | byte more =>
          refine .byte (ih (fun slashed => .inr ?_) more)
          rw [List.getLast?_concat, of_decide_eq_true slashed]
  | anyByte _ ih =>
      cases denotes with
      | anyByte other more => exact .anyByte other (ih (fun none_ => nomatch none_) more)
  | oneOf _ ih =>
      cases denotes with
      | oneOf other among more => exact .oneOf other among (ih (fun none_ => nomatch none_) more)
  | star _ ih =>
      cases denotes with
      | star within more => exact .star within (ih (fun none_ => nomatch none_) more)
  | last =>
      cases denotes with
      | @doubleStar _ part rest _ _ more =>
          cases more
          have bounds : Whole before part [] := by
            rw [Whole, List.append_nil]
            refine .inr ⟨?_, .inr (.inl rfl)⟩
            cases start rfl with
            | inl first => exact .inl first
            | inr slashed => exact .inr (.inr (.inl slashed))
          exact .doubleStar bounds .done
  | @doubleStar tokens _ ih =>
      cases denotes with
      | @doubleStar _ part rest _ _ more =>
          cases more with
          | @star _ run rest _ within more =>
              -- The `*` takes what the `**` took of the last component.
              have split_ : part = part.rdropWhile (· ≠ slash) ++ part.rtakeWhile (· ≠ slash) :=
                List.rdropWhile_append_rtakeWhile.symm
              have plain : slash ∉ part.rtakeWhile (· ≠ slash) := by
                intro member
                exact absurd (List.mem_rtakeWhile_imp member) (by decide)
              have ends : part.rdropWhile (· ≠ slash) = []
                  ∨ (part.rdropWhile (· ≠ slash)).getLast? = some slash := by
                by_cases none_ : part.rdropWhile (· ≠ slash) = []
                · exact .inl none_
                · have last := List.rdropWhile_last_not (· ≠ slash) part none_
                  refine .inr ?_
                  rw [List.getLast?_eq_some_getLast none_, Option.some.injEq]
                  simpa using last
              generalize part.rdropWhile (· ≠ slash) = front at split_ ends
              generalize part.rtakeWhile (· ≠ slash) = tail at split_ plain
              subst split_
              have bounds : Whole before front ((tail ++ run) ++ rest) := by
                cases ends with
                | inl none_ => exact .inl none_
                | inr slashed =>
                    refine .inr ⟨?_, .inr (.inr (.inl ?_))⟩
                    · cases start rfl with
                      | inl first => exact .inl first
                      | inr behind => exact .inr (.inr (.inl behind))
                    · rw [List.getLast?_append, slashed, Option.some_or]
              have run_ : slash ∉ tail ++ run := by
                rw [List.mem_append, not_or]
                exact ⟨plain, within⟩
              have later : Denotes Whole ((before ++ front) ++ (tail ++ run)) tokens rest := by
                have whole := ih (fun none_ => nomatch none_) more
                rwa [List.append_assoc before front tail |>.symm, List.append_assoc _ tail run]
                  at whole
              have found := Denotes.doubleStar bounds (.star run_ later)
              rwa [List.append_assoc, ← List.append_assoc front tail] at found

theorem isClass_ne_nil {text : Bytes} {token : Token} (isClass : IsClass text token)
    : text ≠ [] := by
  cases isClass with
  | negated => exact List.cons_ne_nil _ _
  | plain _ body =>
      cases body with
      | bracket => exact List.cons_ne_nil _ _
      | plain _ rest => exact rest.ne_nil

/-- A compiled pattern matches exactly the paths that the grammar means, exactly where a path that
it reaches by cutting a component, or as a pattern for directories by matching the path itself, is
meant too. With bounded `**`, and a name for directories if any, this is every path. A class is read
from a front of what is left of the pattern.
-/
theorem globs_mean_iff (pattern path : Bytes)
    : (((Glob.fromBytes pattern).matchesPath path = true ↔ Means pattern path)
        ↔ (Reaches pattern path → Means pattern path))
      ∧ ((directoryOnly pattern → nameOnly pattern)
          → (∀ tokens, Reads (body pattern) tokens → Bounded true tokens)
          → ∀ path, (Glob.fromBytes pattern).matchesPath path = true ↔ Means pattern path)
      ∧ ∀ input token more,
          parseClass input = some (token, more)
          → ∃ text, text ≠ [] ∧ input = text ++ more ∧ IsClass text token := by
  refine ⟨?_, fun named bounded path => ?_, fun input token more read => ?_⟩
  · rw [matchesPath_iff]
    exact ⟨fun same => same.mp, fun meant => ⟨meant, reaches_of_means⟩⟩
  · rw [matchesPath_iff]
    refine ⟨?_, reaches_of_means⟩
    rintro ⟨tokens, subject, reads, offered | ⟨paths, directories, -⟩, denotes⟩
    · exact ⟨tokens, subject, reads, offered,
        (bounded tokens reads).whole (fun _ => .inl rfl) denotes⟩
    · exact absurd (named directories) paths
  · obtain ⟨text, same, isClass⟩ := parseClass_eq_some.mp read
    exact ⟨text, isClass_ne_nil isClass, same, isClass⟩

/-- `**/foo` matches the file `barfoo`, and `/build/` the file `build`. -/
theorem cut_component_matches
    : ((Glob.fromBytes [42, 42, 47, 102, 111, 111]).matchesPath [98, 97, 114, 102, 111, 111] = true
        ∧ ¬Means [42, 42, 47, 102, 111, 111] [98, 97, 114, 102, 111, 111])
      ∧ ((Glob.fromBytes [47, 98, 117, 105, 108, 100, 47]).matchesPath [98, 117, 105, 108, 100]
          = true
        ∧ ¬Means [47, 98, 117, 105, 108, 100, 47] [98, 117, 105, 108, 100]) := by
  refine ⟨⟨by decide, ?_⟩, ⟨by decide, ?_⟩⟩
  · rintro ⟨tokens, subject, reads, offered, denotes⟩
    have read : tokens = [.doubleStar, .byte 102, .byte 111, .byte 111] :=
      (reads_iff (Nat.le_refl _)).mp reads
    have slashed : ¬nameOnly [42, 42, 47, 102, 111, 111] := fun names => names.2 (by decide)
    have itself : subject = [98, 97, 114, 102, 111, 111] := by
      cases offered with
      | component names => exact absurd names slashed
      | interior names => exact absurd names slashed
      | whole => rfl
      | directory _ directories => exact absurd directories (by decide)
    subst read
    cases denotes with
    | @doubleStar _ part rest _ taken more =>
        have behind : rest = [102, 111, 111] := by
          cases more with
          | byte more =>
              cases more with
              | byte more =>
                  cases more with
                  | byte more =>
                      cases more
                      rfl
        subst behind
        have whole : part ++ [102, 111, 111] = [98, 97, 114] ++ [102, 111, 111] := itself
        have cut : part = [98, 97, 114] := List.append_cancel_right whole
        subst cut
        rcases taken with none_ | ⟨-, first | last | slashed | slashed⟩
        · cases none_
        · exact absurd first (by decide)
        · exact absurd last (by decide)
        · exact absurd slashed (by decide)
        · exact absurd slashed (by decide)
  · rintro ⟨tokens, subject, reads, offered, denotes⟩
    have rooted : ¬nameOnly [47, 98, 117, 105, 108, 100, 47] := fun names => names.1 (by decide)
    cases offered with
    | component names => exact absurd names rooted
    | interior names => exact absurd names rooted
    | whole _ files => exact absurd (by decide) files
    | directory _ _ above =>
        have member := above.subset (List.mem_append_right _ (List.mem_singleton_self _))
        exact absurd member (by decide)

end GlobPattern

end Gfs.Types
