import Gfs.Lib.Checked
import Gfs.Service.Odb
import Gfs.Types.Selector

/-! Range requests (`parse_range`, `immutable_blob` and `odb_file` of
`gfs-service/src/service/http.rs`, and `read` of `gfs-service/src/service/webdav.rs`): the ranges
RFC 9110 gives a header, the ranges that are read from it, and the bytes that are served.
-/

namespace Gfs.Service.Ranges

open Gfs.Types
open Gfs.Lib.Checked
open Gfs.Service.Odb (splitOnce splitOnce_append splitOnce_some slice)

-- Ranges of RFC 9110

/-- The one range of a header: the last bytes, or those from a first on, or up to a last. -/
inductive Spec
  | suffix (count : Nat)
  | start (first : Nat)
  | between (first last : Nat)
  deriving DecidableEq, Repr

/-- The bytes a range has in a representation of some length, first and last; none where it is
invalid or not satisfiable.
-/
def Spec.assigned (total : Nat) : Spec → Option (Nat × Nat)
  | .suffix count => if count = 0 ∨ total = 0 then none else some (total - count, total - 1)
  | .start first => if first < total then some (first, total - 1) else none
  | .between first last =>
      if first ≤ last ∧ first < total then some (first, min last (total - 1)) else none

/-- Decimal digits and what they mean. -/
def Numeral (text : Text) (n : Nat) : Prop :=
  text ≠ [] ∧ text.all Char.isDigit = true ∧ Nat.ofDigitChars 10 text 0 = n

/-- How a header writes a number, and how it leaves one out. -/
structure Writing where
  number : Text → Nat → Prop
  nothing : Text → Prop

/-- The grammar's way: digits. -/
def strict : Writing where
  number := Numeral
  nothing text := text = []

def Blank (text : Text) : Prop :=
  ∀ c ∈ text, isWhitespace c = true

/-- The same between blanks, where a number may have a plus sign. -/
def lenient : Writing where
  number text n :=
    ∃ front sign digits back,
      text = front ++ (sign ++ digits) ++ back
      ∧ Blank front
      ∧ Blank back
      ∧ (sign = [] ∨ sign = ['+'])
      ∧ Numeral digits n
  nothing := Blank

/-- A range is spelled by what stands in front of the hyphen and behind it. -/
def Parts (writing : Writing) (first last : Text) : Spec → Prop
  | .suffix count => writing.nothing first ∧ writing.number last count
  | .start start => writing.number first start ∧ writing.nothing last
  | .between start finish => writing.number first start ∧ writing.number last finish

/-- A header spells a range. -/
def Spells (writing : Writing) (value : Text) (spec : Spec) : Prop :=
  ∃ first last,
    value = "bytes=".toList ++ (first ++ '-' :: last) ∧ Parts writing first last spec

/-- Its numbers are `u64`s. -/
def Spec.Fits : Spec → Prop
  | .suffix count => count < 2 ^ 64
  | .start first => first < 2 ^ 64
  | .between first last => first < 2 ^ 64 ∧ last < 2 ^ 64

instance : DecidablePred Spec.Fits
  | .suffix count => inferInstanceAs (Decidable (count < 2 ^ 64))
  | .start first => inferInstanceAs (Decidable (first < 2 ^ 64))
  | .between first last => inferInstanceAs (Decidable (first < 2 ^ 64 ∧ last < 2 ^ 64))

-- The source

/-- Digits behind a plus sign or none. -/
def unsigned (text : Text) : Option Nat :=
  let digits := if text.head? = some '+' then text.tail else text
  if digits ≠ [] ∧ digits.all Char.isDigit = true then some (Nat.ofDigitChars 10 digits 0)
  else none

/-- `str::parse::<u64>`. -/
def parseU64 (text : Text) : Option Nat :=
  (unsigned text).filter (· < 2 ^ 64)

def unsatisfiable : GfsError :=
  ⟨.invalidArgument, "unsatisfiable range".toList⟩

/-- The two positions of a range, each trimmed; none where an operation overflows. -/
def positions (start last : Text) (total : Nat) : Option (Except GfsError (Nat × Nat)) :=
  match start, last with
  | [], count =>
      match parseU64 count with
      | none => some (.error unsatisfiable)
      | some count =>
          if count = 0 then some (.error unsatisfiable)
          else (checkedSub total 1).map fun most => .ok (total - count, most)
  | start, [] =>
      match parseU64 start with
      | none => some (.error unsatisfiable)
      | some start => (checkedSub total 1).map fun most => .ok (start, most)
  | start, last =>
      match parseU64 start, parseU64 last with
      | some start, some last => some (.ok (start, last))
      | _, _ => some (.error unsatisfiable)

/-- A range inside a length, its end clamped. -/
def within (total start last : Nat) : Option (Except GfsError (Nat × Nat)) :=
  if start > last ∨ start ≥ total then some (.error unsatisfiable)
  else (checkedSub total 1).map fun most => .ok (start, min last most)

/-- Parse a single-range header, giving an inclusive byte range. -/
def parseRange (value : Text) (total : Nat) : Option (Except GfsError (Nat × Nat)) :=
  match stripPrefix "bytes=".toList value with
  | none => some (.error unsatisfiable)
  | some spec =>
      if ',' ∈ spec then
        some (.error ⟨.invalidArgument, "only a single byte range is supported".toList⟩)
      else
        match splitOnce '-' spec with
        | none => some (.error unsatisfiable)
        | some (start, last) =>
            if total = 0 then some (.error unsatisfiable)
            else do
              match ← positions (trim start) (trim last) total with
              | .error refusal => return .error refusal
              | .ok (start, last) => within total start last

/-- What a response carries: bytes, the JSON of an error, or a text. -/
inductive Body
  | bytes (content : Bytes)
  | error (refusal : GfsError)
  | text (message : Text)
  deriving DecidableEq

structure Response where
  status : Nat
  body : Body
  contentRange : Option Text
  deriving DecidableEq

def contentRange (start last total : Nat) : Text :=
  "bytes ".toList ++ Nat.toDigits 10 start ++ "-".toList ++ Nat.toDigits 10 last ++ "/".toList
    ++ Nat.toDigits 10 total

/-- `bytes[start..=last]`, which fails outside of the content. -/
def sliceInclusive (content : Bytes) (start last : Nat) : Option Bytes :=
  if start ≤ last + 1 ∧ last < content.length then some (slice content start (last + 1)) else none

/-- Content held in memory under a header, with what a refusal carries. -/
def rangeResponse (refused : GfsError → Body) (content : Bytes) (range : Option Text)
    : Option Response :=
  match range with
  | none => some ⟨200, .bytes content, none⟩
  | some value => do
      match ← parseRange value content.length with
      | .error refusal =>
          return ⟨416, refused refusal,
            some ("bytes */".toList ++ Nat.toDigits 10 content.length)⟩
      | .ok (start, last) =>
          let body ← sliceInclusive content start last
          return ⟨206, .bytes body, some (contentRange start last content.length)⟩

/-- The response of `immutable_blob` for a blob's content. -/
def immutableBlob : Bytes → Option Text → Option Response :=
  rangeResponse .error

/-- The response of the WebDAV `read` for a blob's content. -/
def webdavRead : Bytes → Option Text → Option Response :=
  rangeResponse fun refusal => .text (refusal.message ++ ['\n'])

def maxUnrangedOdbRead : Nat :=
  8 * 1024 * 1024

/-- A whole file that is too long to be asked for. -/
def unranged (total : Nat) : GfsError :=
  ⟨.invalidArgument,
    "this file is ".toList ++ Nat.toDigits 10 total ++ " bytes; request a range".toList⟩

/-- The range of a file that `odb_file` reads. -/
def odbRange (total : Nat) (range : Option Text) : Option (Except GfsError (Nat × Nat)) :=
  match range with
  | some value => parseRange value total
  | none =>
      if total > maxUnrangedOdbRead then some (.error (unranged total))
      else some (.ok (0, total - 1))

/-- What `odb_file` reads of a file: the bytes, their range and the file's length. -/
def odbRead (content : Bytes) (range : Option Text)
    : Option (Except GfsError (Bytes × Nat × Nat × Nat)) := do
  let total := content.length
  match ← odbRange total range with
  | .error refusal => return .error refusal
  | .ok (start, last) =>
      let span ← checkedSub last start
      let len ← checkedAdd span 1
      if start + len ≤ total then
        return .ok (slice content start (start + len), start, last, total)
      else
        return .error ⟨.internal,
          "short read of an immutable file: failed to fill whole buffer".toList⟩

/-- The response of `odb_file` for a file's content. -/
def odbFile (content : Bytes) (range : Option Text) : Option Response := do
  match ← odbRead content range with
  | .error refusal => return ⟨refusal.code.httpStatus, .error refusal, none⟩
  | .ok (bytes, start, last, total) =>
      let after ← checkedAdd last 1
      if start = 0 ∧ after = total then return ⟨200, .bytes bytes, none⟩
      else return ⟨206, .bytes bytes, some (contentRange start last total)⟩

-- Reading a header

/-- What a header's two positions spell. -/
def specOf (read : Text → Option Nat) (start last : Text) : Option Spec :=
  match start, last with
  | [], count => (read count).map .suffix
  | start, [] => (read start).map .start
  | start, last => (read start).bind fun start => (read last).map (.between start)

/-- What a range gives in a length. -/
def answerOf (total : Nat) (spec : Option Spec) : Except GfsError (Nat × Nat) :=
  match spec.bind (Spec.assigned total) with
  | none => .error unsatisfiable
  | some range => .ok range

theorem within_eq {total : Nat} (held : total ≠ 0) (start last : Nat)
    : within total start last = some (answerOf total (some (.between start last))) := by
  rw [within, checkedSub_one held, answerOf, Option.bind_some, Spec.assigned]
  by_cases good : start ≤ last ∧ start < total
  · rw [if_pos good, if_neg (by omega)]
    rfl
  · rw [if_neg good, if_pos (by omega)]

/-- Between two positions the code answers as the range is assigned. -/
theorem positions_eq (start last : Text) {total : Nat} (held : total ≠ 0)
    : (positions start last total).bind (fun positions =>
          match positions with
          | .error refusal => some (.error refusal)
          | .ok (start, last) => within total start last)
      = some (answerOf total (specOf parseU64 start last)) := by
  have positive := Nat.pos_of_ne_zero held
  cases start with
  | nil =>
      simp only [positions, specOf]
      cases parseU64 last with
      | none => rfl
      | some count =>
          by_cases zero : count = 0
          · simp [zero, answerOf, Spec.assigned]
          · simp only [zero, if_false, checkedSub_one held, Option.map_some, Option.bind_some,
              within_eq held, answerOf, Spec.assigned, held, or_self]
            rw [if_pos (by omega), Nat.min_self]
  | cons c start =>
      cases last with
      | nil =>
          simp only [positions, specOf]
          cases parseU64 (c :: start) with
          | none => rfl
          | some first =>
              simp only [checkedSub_one held, Option.map_some, Option.bind_some, within_eq held,
                answerOf, Spec.assigned, Nat.min_self]
              by_cases inside : first < total
              · rw [if_pos inside, if_pos (by omega)]
              · rw [if_neg inside, if_neg (by omega)]
      | cons d last =>
          simp only [positions, specOf]
          cases parseU64 (c :: start) with
          | none => rfl
          | some first =>
              cases parseU64 (d :: last) with
              | none => rfl
              | some finish => exact within_eq held first finish

/-- A header without a range of its own is refused, and one with a range answered as it is
assigned.
-/
theorem parseRange_eq (value : Text) (total : Nat)
    : parseRange value total
      = some
          (match stripPrefix "bytes=".toList value with
          | none => .error unsatisfiable
          | some spec =>
              if ',' ∈ spec then
                .error ⟨.invalidArgument, "only a single byte range is supported".toList⟩
              else answerOf total ((splitOnce '-' spec).bind fun parts =>
                specOf parseU64 (trim parts.1) (trim parts.2))) := by
  unfold parseRange
  cases stripPrefix "bytes=".toList value with
  | none => rfl
  | some spec =>
      dsimp only
      split
      · rfl
      · cases splitOnce '-' spec with
        | none => rfl
        | some parts =>
            obtain ⟨start, last⟩ := parts
            dsimp only [Option.bind_some]
            by_cases empty : total = 0
            · rw [if_pos empty, empty]
              cases specOf parseU64 (trim start) (trim last) with
              | none => rfl
              | some spec => cases spec <;> simp [answerOf, Spec.assigned]
            · rw [if_neg empty, ← positions_eq (trim start) (trim last) empty]
              rfl

-- Blanks and numbers

theorem exists_trim (text : Text)
    : ∃ front back, text = front ++ trim text ++ back ∧ Blank front ∧ Blank back := by
  refine ⟨text.takeWhile isWhitespace, (text.dropWhile isWhitespace).rtakeWhile isWhitespace,
    ?_, fun c member => List.mem_takeWhile_imp member, fun c member => ?_⟩
  · rw [trim, List.append_assoc, List.rdropWhile_append_rtakeWhile,
      List.takeWhile_append_dropWhile]
  · exact List.mem_rtakeWhile_imp member

theorem dropWhile_blank {front inner : Text} (first : Blank front)
    (solid : ∀ c ∈ inner.head?, isWhitespace c = false)
    : (front ++ inner).dropWhile isWhitespace = inner := by
  rw [List.dropWhile_append_of_pos first]
  cases inner with
  | nil => rfl
  | cons c inner =>
      have visible := solid c rfl
      rw [List.dropWhile_cons_of_neg (by simp [visible])]

theorem trim_eq {front inner back : Text} (first : Blank front) (last : Blank back)
    (solid : ∀ c ∈ inner, isWhitespace c = false)
    : trim (front ++ inner ++ back) = inner := by
  have last' : Blank back.reverse := fun c member => last c (List.mem_reverse.mp member)
  have ends : ∀ c ∈ inner.reverse.head?, isWhitespace c = false := fun c head =>
    solid c (List.mem_reverse.mp (List.mem_of_head? head))
  cases inner with
  | nil =>
      have blank : Blank (front ++ [] ++ back) := by
        intro c member
        rw [List.append_nil, List.mem_append] at member
        exact member.elim (first c) (last c)
      rw [trim, List.dropWhile_eq_nil_iff.mpr blank]
      rfl
  | cons c inner =>
      have starts : ∀ d ∈ (c :: inner ++ back).head?, isWhitespace d = false := fun d head =>
        solid d (by cases head; exact List.mem_cons_self)
      rw [trim, List.append_assoc, dropWhile_blank first starts, List.rdropWhile,
        List.reverse_append, dropWhile_blank last' ends, List.reverse_reverse]

variable {text first value : Text} {n start last : Nat} {spec : Spec} {content : Bytes}

theorem trim_eq_nil : trim text = [] ↔ Blank text := by
  constructor
  · intro empty
    obtain ⟨front, back, whole, first, last⟩ := exists_trim text
    rw [empty, List.append_nil] at whole
    intro c member
    rw [whole] at member
    exact (List.mem_append.mp member).elim (first c) (last c)
  · intro blank
    have nothing : trim (text ++ [] ++ []) = [] :=
      trim_eq blank (fun _ member => by cases member) (fun _ member => by cases member)
    simpa using nothing

theorem solid_of_digit {c : Char} (digit : c.isDigit = true)
    : isWhitespace c = false ∧ c ≠ '+' ∧ c ≠ '-' ∧ c ≠ ',' := by
  have bounds : 48 ≤ c.toNat ∧ c.toNat ≤ 57 := by
    simp only [Char.isDigit, ge_iff_le, Bool.and_eq_true, decide_eq_true_eq] at digit
    exact ⟨digit.1, digit.2⟩
  have apart {d : Char} (far : d.toNat < 48) : c ≠ d := by
    rintro rfl
    omega
  refine ⟨?_, apart (by decide), apart (by decide), apart (by decide)⟩
  simp only [isWhitespace, Bool.or_eq_false_iff, Bool.and_eq_false_iff, decide_eq_false_iff_not]
  omega

theorem unsigned_eq_some
    : unsigned text = some n
      ↔ ∃ sign digits, text = sign ++ digits ∧ (sign = [] ∨ sign = ['+']) ∧ Numeral digits n := by
  unfold unsigned
  constructor
  · intro read
    by_cases plus : text.head? = some '+'
    · rw [if_pos plus] at read
      cases text with
      | nil => cases plus
      | cons c rest =>
          obtain rfl : c = '+' := by simpa using plus
          dsimp only at read
          split at read
          · rename_i good
            exact ⟨['+'], rest, rfl, .inr rfl, good.1, good.2, Option.some.inj read⟩
          · cases read
    · rw [if_neg plus] at read
      dsimp only at read
      split at read
      · rename_i good
        exact ⟨[], text, rfl, .inl rfl, good.1, good.2, Option.some.inj read⟩
      · cases read
  · rintro ⟨sign, digits, rfl, rfl | rfl, nonempty, all, rfl⟩
    · have bare : ([] ++ digits).head? ≠ some '+' := by
        cases digits with
        | nil => exact fun none => by cases none
        | cons c rest =>
            rw [List.all_cons, Bool.and_eq_true] at all
            simpa using (solid_of_digit all.1).2.1
      rw [if_neg bare]
      exact if_pos ⟨nonempty, all⟩
    · have plus : (['+'] ++ digits).head? = some '+' := rfl
      rw [if_pos plus]
      exact if_pos ⟨nonempty, all⟩

theorem solid_of_unsigned (read : unsigned text = some n)
    : ∀ c ∈ text, isWhitespace c = false ∧ c ≠ '-' ∧ c ≠ ',' := by
  obtain ⟨sign, digits, rfl, plus, _, all, _⟩ := unsigned_eq_some.mp read
  intro c member
  rcases List.mem_append.mp member with member | member
  · rcases plus with rfl | rfl
    · cases member
    · rw [List.mem_singleton.mp member]
      decide
  · have solid := solid_of_digit (List.all_eq_true.mp all c member)
    exact ⟨solid.1, solid.2.2⟩

theorem number_iff
    : lenient.number text n ↔ unsigned (trim text) = some n := by
  constructor
  · rintro ⟨front, sign, digits, back, rfl, first, last, plus, numeral⟩
    have read := unsigned_eq_some.mpr ⟨sign, digits, rfl, plus, numeral⟩
    rwa [trim_eq first last fun c member => (solid_of_unsigned read c member).1]
  · intro read
    obtain ⟨front, back, whole, first, last⟩ := exists_trim text
    obtain ⟨sign, digits, inner, plus, numeral⟩ := unsigned_eq_some.mp read
    rw [inner] at whole
    exact ⟨front, sign, digits, back, whole, first, last, plus, numeral⟩

theorem plain_of_blank (blank : Blank text) : ∀ c ∈ text, c ≠ '-' ∧ c ≠ ',' := by
  intro c member
  have white := blank c member
  constructor <;>
    · rintro rfl
      revert white
      decide

theorem plain_of_number (number : lenient.number text n)
    : ∀ c ∈ text, c ≠ '-' ∧ c ≠ ',' := by
  have solid := solid_of_unsigned (number_iff.mp number)
  obtain ⟨front, back, whole, first, last⟩ := exists_trim text
  intro c member
  rw [whole, List.mem_append, List.mem_append] at member
  rcases member with (member | member) | member
  · exact plain_of_blank first c member
  · exact (solid c member).2
  · exact plain_of_blank last c member

-- What is read

theorem unsigned_nil : unsigned [] = none := by
  decide

theorem trim_ne_nil_of_number (number : lenient.number text n)
    : trim text ≠ [] := by
  intro empty
  have read := number_iff.mp number
  rw [empty, unsigned_nil] at read
  cases read

theorem specOf_start {read : Text → Option Nat} (there : first ≠ [])
    : specOf read first [] = (read first).map .start := by
  cases first with
  | nil => exact (there rfl).elim
  | cons c rest => rfl

theorem specOf_between {read : Text → Option Nat} {last : Text} (there : first ≠ [])
    (also : last ≠ [])
    : specOf read first last
      = (read first).bind fun start => (read last).map (.between start) := by
  cases first with
  | nil => exact (there rfl).elim
  | cons c rest =>
      cases last with
      | nil => exact (also rfl).elim
      | cons d rest' => rfl

/-- The two positions are read as the range they spell. -/
theorem specOf_unsigned {last : Text}
    : specOf unsigned (trim first) (trim last) = some spec ↔ Parts lenient first last spec := by
  constructor
  · intro read
    by_cases empty : trim first = []
    · rw [empty] at read
      obtain ⟨count, counted, rfl⟩ := Option.map_eq_some_iff.mp read
      exact ⟨trim_eq_nil.mp empty, number_iff.mpr counted⟩
    · by_cases open_ : trim last = []
      · rw [open_, specOf_start empty] at read
        obtain ⟨start, started, rfl⟩ := Option.map_eq_some_iff.mp read
        exact ⟨number_iff.mpr started, trim_eq_nil.mp open_⟩
      · rw [specOf_between empty open_] at read
        obtain ⟨start, started, read⟩ := Option.bind_eq_some_iff.mp read
        obtain ⟨finish, finished, rfl⟩ := Option.map_eq_some_iff.mp read
        exact ⟨number_iff.mpr started, number_iff.mpr finished⟩
  · intro parts
    cases spec with
    | suffix count =>
        obtain ⟨nothing, number⟩ := parts
        rw [trim_eq_nil.mpr nothing, specOf, number_iff.mp number]
        rfl
    | start first =>
        obtain ⟨number, nothing⟩ := parts
        rw [trim_eq_nil.mpr nothing, specOf_start (trim_ne_nil_of_number number),
          number_iff.mp number]
        rfl
    | between first last =>
        obtain ⟨number, number'⟩ := parts
        rw [specOf_between (trim_ne_nil_of_number number) (trim_ne_nil_of_number number'),
          number_iff.mp number, number_iff.mp number']
        rfl

theorem parseU64_some (read : unsigned text = some n)
    : parseU64 text = if n < 2 ^ 64 then some n else none := by
  rw [parseU64, read, Option.filter_some]
  simp

/-- A range whose numbers do not fit is not read. -/
theorem specOf_parseU64 {last : Text} (spelled : specOf unsigned first last = some spec)
    : specOf parseU64 first last = if spec.Fits then some spec else none := by
  by_cases empty : first = []
  · rw [empty] at spelled ⊢
    obtain ⟨count, read, rfl⟩ := Option.map_eq_some_iff.mp spelled
    rw [specOf, parseU64_some read]
    split
    · rename_i small
      exact (if_pos small).symm
    · rename_i large
      exact (if_neg large).symm
  · by_cases open_ : last = []
    · rw [open_, specOf_start empty] at spelled ⊢
      obtain ⟨start, read, rfl⟩ := Option.map_eq_some_iff.mp spelled
      rw [parseU64_some read]
      split
      · rename_i small
        exact (if_pos small).symm
      · rename_i large
        exact (if_neg large).symm
    · rw [specOf_between empty open_] at spelled ⊢
      obtain ⟨start, read, spelled⟩ := Option.bind_eq_some_iff.mp spelled
      obtain ⟨finish, read', rfl⟩ := Option.map_eq_some_iff.mp spelled
      rw [parseU64_some read, parseU64_some read']
      by_cases fits : (Spec.between start finish).Fits
      · rw [if_pos fits.1, if_pos fits.2, if_pos fits]
        rfl
      · rw [if_neg fits]
        by_cases small : start < 2 ^ 64
        · rw [if_pos small, if_neg fun small' => fits ⟨small, small'⟩]
          rfl
        · rw [if_neg small]
          rfl

theorem specOf_parseU64_none {last : Text} (spelled : specOf unsigned first last = none)
    : specOf parseU64 first last = none := by
  by_cases empty : first = []
  · rw [empty] at spelled ⊢
    have unread := Option.map_eq_none_iff.mp spelled
    rw [specOf, parseU64, unread]
    rfl
  · by_cases open_ : last = []
    · rw [open_, specOf_start empty] at spelled ⊢
      rw [parseU64, Option.map_eq_none_iff.mp spelled]
      rfl
    · rw [specOf_between empty open_] at spelled ⊢
      rw [parseU64, parseU64]
      cases read : unsigned first with
      | none => rfl
      | some start =>
          rw [read] at spelled
          rw [Option.map_eq_none_iff.mp spelled]
          cases (some start : Option Nat).filter (· < 2 ^ 64) <;> rfl

/-- A header that spells a range is answered as the range is assigned, if its numbers fit. -/
theorem parseRange_spells (spells : Spells lenient value spec) (total : Nat)
    : parseRange value total
      = some (answerOf total (if spec.Fits then some spec else none)) := by
  obtain ⟨first, last, rfl, parts⟩ := spells
  have plain : (∀ c ∈ first, c ≠ '-' ∧ c ≠ ',') ∧ ∀ c ∈ last, c ≠ '-' ∧ c ≠ ',' := by
    cases spec with
    | suffix count => exact ⟨plain_of_blank parts.1, plain_of_number parts.2⟩
    | start first => exact ⟨plain_of_number parts.1, plain_of_blank parts.2⟩
    | between first last => exact ⟨plain_of_number parts.1, plain_of_number parts.2⟩
  have single : ',' ∉ first ++ '-' :: last := by
    intro member
    rcases List.mem_append.mp member with member | member
    · exact (plain.1 _ member).2 rfl
    · rcases List.mem_cons.mp member with same | member
      · revert same
        decide
      · exact (plain.2 _ member).2 rfl
  rw [parseRange_eq, stripPrefix_append]
  dsimp only
  rw [if_neg single, splitOnce_append (fun member => (plain.1 _ member).1 rfl), Option.bind_some,
    specOf_parseU64 (specOf_unsigned.mpr parts)]

/-- Exactly the ranges that a header spells are read from it. -/
theorem parseRange_eq_ok {total : Nat} {range : Nat × Nat}
    : parseRange value total = some (.ok range)
      ↔ ∃ spec,
          Spells lenient value spec ∧ spec.Fits ∧ spec.assigned total = some range := by
  constructor
  · intro read
    rw [parseRange_eq] at read
    cases stripped : stripPrefix "bytes=".toList value with
    | none =>
        rw [stripped] at read
        cases read
    | some rest =>
        rw [stripped] at read
        dsimp only at read
        split at read
        · cases read
        · cases parted : splitOnce '-' rest with
          | none =>
              rw [parted] at read
              cases read
          | some parts =>
              obtain ⟨first, last⟩ := parts
              rw [parted, Option.bind_some] at read
              cases spelled : specOf unsigned (trim first) (trim last) with
              | none =>
                  rw [specOf_parseU64_none spelled] at read
                  cases read
              | some spec =>
                  rw [specOf_parseU64 spelled] at read
                  refine ⟨spec, ⟨first, last, ?_, specOf_unsigned.mp spelled⟩, ?_⟩
                  · rw [stripPrefix_some stripped, splitOnce_some parted]
                  · by_cases fits : spec.Fits
                    · rw [if_pos fits, answerOf, Option.bind_some] at read
                      cases given : spec.assigned total with
                      | none =>
                          rw [given] at read
                          cases read
                      | some range' =>
                          rw [given] at read
                          cases read
                          exact ⟨fits, rfl⟩
                    · rw [if_neg fits] at read
                      cases read
  · rintro ⟨spec, spells, fits, assigned⟩
    rw [parseRange_spells spells, if_pos fits, answerOf, Option.bind_some, assigned]

theorem parseRange_isSome (value : Text) (total : Nat) : (parseRange value total).isSome := by
  rw [parseRange_eq]
  rfl

theorem assigned_bounds {total : Nat} {range : Nat × Nat} (given : spec.assigned total = some range)
    : range.1 ≤ range.2 ∧ range.2 < total := by
  cases spec <;> simp only [Spec.assigned, Option.ite_none_left_eq_some,
    Option.ite_none_right_eq_some, Option.some.injEq] at given
  all_goals
    obtain ⟨good, rfl⟩ := given
    dsimp only
    omega

theorem spells_of_strict (spells : Spells strict value spec)
    : Spells lenient value spec := by
  obtain ⟨first, last, whole, parts⟩ := spells
  have number {text : Text} {n : Nat} (numeral : Numeral text n) : lenient.number text n :=
    ⟨[], [], text, [], by simp, fun _ member => (List.not_mem_nil member).elim,
      fun _ member => (List.not_mem_nil member).elim, .inl rfl, numeral⟩
  have nothing {text : Text} (empty : text = []) : Blank text := by
    rw [empty]
    exact fun _ member => by cases member
  refine ⟨first, last, whole, ?_⟩
  cases spec with
  | suffix count => exact ⟨nothing parts.1, number parts.2⟩
  | start start => exact ⟨number parts.1, nothing parts.2⟩
  | between start finish => exact ⟨number parts.1, number parts.2⟩

-- What is served

theorem sliceInclusive_eq (ordered : start ≤ last) (inside : last < content.length)
    : sliceInclusive content start last = some (slice content start (last + 1))
      ∧ (slice content start (last + 1)).length = last - start + 1 := by
  refine ⟨if_pos ⟨by omega, inside⟩, ?_⟩
  rw [Odb.slice_length]
  omega

theorem rangeResponse_ok (refused : GfsError → Body)
    (read : parseRange value content.length = some (.ok (start, last)))
    : rangeResponse refused content (some value)
      = some
          ⟨206, .bytes (slice content start (last + 1)),
            some (contentRange start last content.length)⟩ := by
  obtain ⟨spec, _, _, given⟩ := parseRange_eq_ok.mp read
  have bounds := assigned_bounds given
  rw [rangeResponse, read]
  dsimp only [Option.bind_eq_bind, Option.bind_some]
  rw [(sliceInclusive_eq bounds.1 bounds.2).1]
  rfl

theorem odbRead_range {range : Option Text} (bounded : content.length < 2 ^ 64)
    (ordered : start ≤ last) (inside : last < content.length)
    (read : odbRange content.length range = some (.ok (start, last)))
    : odbRead content range
      = some (.ok (slice content start (last + 1), start, last, content.length)) := by
  unfold odbRead
  dsimp only
  rw [read]
  dsimp only [Option.bind_eq_bind, Option.bind_some]
  have span : checkedSub last start = some (last - start) := checkedSub_of_le ordered
  have len : checkedAdd (last - start) 1 = some (last - start + 1) :=
    checkedAdd_of_lt (by omega)
  have whole : start + (last - start + 1) = last + 1 := by omega
  rw [span, Option.bind_some, len, Option.bind_some, whole, if_pos (by omega)]
  rfl

theorem odbRead_long (long : maxUnrangedOdbRead < content.length)
    : odbRead content none = some (.error (unranged content.length)) := by
  unfold odbRead
  dsimp only
  rw [odbRange, if_pos long]
  rfl

/-- A range read of a file is answered in part, unless it is the whole file. -/
theorem odbFile_range {range : Option Text} (bounded : content.length < 2 ^ 64)
    (inside : last < content.length)
    (read
      : odbRead content range
        = some (.ok (slice content start (last + 1), start, last, content.length)))
    : odbFile content range
      = some
          (if start = 0 ∧ last + 1 = content.length then ⟨200, .bytes content, none⟩
          else
            ⟨206, .bytes (slice content start (last + 1)),
              some (contentRange start last content.length)⟩) := by
  have after : checkedAdd last 1 = some (last + 1) := checkedAdd_of_lt (by omega)
  rw [odbFile, read]
  dsimp only [Option.bind_eq_bind, Option.bind_some]
  rw [after, Option.bind_some]
  by_cases all : start = 0 ∧ last + 1 = content.length
  · rw [if_pos all, if_pos all]
    obtain ⟨rfl, full⟩ := all
    rw [full, slice, List.drop_zero, Nat.sub_zero, List.take_length]
    rfl
  · rw [if_neg all, if_neg all]
    rfl

/-- The header of a mount's `read_range`. -/
def asked (start last : Nat) : Text :=
  "bytes=".toList ++ (Nat.toDigits 10 start ++ '-' :: Nat.toDigits 10 last)

theorem numeral_toDigits (n : Nat) : Numeral (Nat.toDigits 10 n) n :=
  ⟨Nat.toDigits_ne_nil, List.all_eq_true.mpr fun _ member => isDigit_of_mem_toDigits member,
    Nat.ofDigitChars_ten_toDigits⟩

theorem parseRange_asked (first : start < 2 ^ 64) (second : last < 2 ^ 64) (total : Nat)
    : parseRange (asked start last) total = some (Odb.rangeWithin start last total) := by
  have spells : Spells strict (asked start last) (.between start last) :=
    ⟨_, _, rfl, numeral_toDigits start, numeral_toDigits last⟩
  rw [parseRange_spells (spells_of_strict spells), if_pos ⟨first, second⟩, answerOf,
    Option.bind_some, Spec.assigned, Odb.rangeWithin]
  by_cases good : start ≤ last ∧ start < total
  · rw [if_pos good, if_neg (by omega)]
  · rw [if_neg good, if_pos (by omega)]
    rfl

/-- A mount's `read_range` of a file that is there gets what is read under its header. -/
theorem odbRead_asked {objects : Odb.Objects} {path : Text} (servable : Odb.isServable path = true)
    (found : objects path = some content) (bounded : content.length < 2 ^ 64)
    (first : start < 2 ^ 64) (second : last < 2 ^ 64)
    : (odbRead content (some (asked start last))).map (Except.map Prod.fst)
      = some (Odb.readRange objects path start last) := by
  have read := parseRange_asked first second content.length
  rw [Odb.readRange, Odb.validateOdbPath, if_pos servable, found]
  dsimp only [bind, Except.bind]
  cases answer : Odb.rangeWithin start last content.length with
  | error refusal =>
      rw [answer] at read
      have refused : odbRange content.length (some (asked start last)) = some (.error refusal) :=
        read
      rw [odbRead, refused]
      rfl
  | ok range =>
      rw [answer] at read
      obtain ⟨spec, _, _, given⟩ := parseRange_eq_ok.mp read
      obtain ⟨ordered, inside⟩ := assigned_bounds given
      have reads : odbRange content.length (some (asked start last)) = some (.ok range) := read
      rw [odbRead_range bounded ordered inside reads]
      rfl

/-- What a header reads is in the length, one that the grammar assigns if blanks and plus signs are
left out of the header; a range that is not satisfiable is refused. Blobs are served whole without
a header, and with one the range that is read; so are files of the object store, where a range that
is the whole file counts as no header, and a file that is too long is not served whole.
-/
theorem ranges_served (value : Text) (total : Nat) (content : Bytes)
    (bounded : content.length < 2 ^ 64)
    : ((parseRange value total).isSome
        ∧ (∀ start last,
            parseRange value total = some (.ok (start, last))
            → start ≤ last
              ∧ last < total
              ∧ ∃ spec, Spells lenient value spec ∧ spec.assigned total = some (start, last))
        ∧ (∀ spec,
            Spells strict value spec
            → spec.Fits
            → parseRange value total = some (answerOf total (some spec)))
        ∧ ∀ spec,
            Spells lenient value spec
            → spec.assigned total = none
            → parseRange value total = some (.error unsatisfiable))
      ∧ (immutableBlob content none = some ⟨200, .bytes content, none⟩
        ∧ webdavRead content none = some ⟨200, .bytes content, none⟩
        ∧ (content ≠ []
          → content.length ≤ maxUnrangedOdbRead
          → odbFile content none = some ⟨200, .bytes content, none⟩)
        ∧ (maxUnrangedOdbRead < content.length
          → ∃ refusal, odbFile content none = some ⟨400, .error refusal, none⟩))
      ∧ ∀ start last,
          parseRange value content.length = some (.ok (start, last))
          → (slice content start (last + 1)).length = last - start + 1
            ∧ immutableBlob content (some value)
              = some
                  ⟨206, .bytes (slice content start (last + 1)),
                    some (contentRange start last content.length)⟩
            ∧ webdavRead content (some value)
              = some
                  ⟨206, .bytes (slice content start (last + 1)),
                    some (contentRange start last content.length)⟩
            ∧ odbFile content (some value)
              = some
                  (if start = 0 ∧ last + 1 = content.length then ⟨200, .bytes content, none⟩
                  else
                    ⟨206, .bytes (slice content start (last + 1)),
                      some (contentRange start last content.length)⟩) := by
  refine ⟨⟨parseRange_isSome value total, fun start last read => ?_, fun spec spells fits => ?_,
    fun spec spells unsatisfied => ?_⟩, ⟨rfl, rfl, fun held short => ?_, fun long => ?_⟩,
    fun start last read => ?_⟩
  · obtain ⟨spec, spells, _, given⟩ := parseRange_eq_ok.mp read
    obtain ⟨ordered, inside⟩ := assigned_bounds given
    exact ⟨ordered, inside, spec, spells, given⟩
  · rw [parseRange_spells (spells_of_strict spells), if_pos fits]
  · rw [parseRange_spells spells]
    split
    · rw [answerOf, Option.bind_some, unsatisfied]
    · rfl
  · have positive := List.length_pos_iff.mpr held
    have unlimited : odbRange content.length none = some (.ok (0, content.length - 1)) :=
      if_neg (Nat.not_lt.mpr short)
    have read := odbRead_range bounded (Nat.zero_le _) (by omega) unlimited
    rw [odbFile_range bounded (by omega) read, if_pos ⟨rfl, by omega⟩]
  · refine ⟨unranged content.length, ?_⟩
    rw [odbFile, odbRead_long long]
    rfl
  · obtain ⟨spec, _, _, given⟩ := parseRange_eq_ok.mp read
    obtain ⟨ordered, inside⟩ := assigned_bounds given
    exact ⟨(sliceInclusive_eq ordered inside).2, rangeResponse_ok _ read, rangeResponse_ok _ read,
      odbFile_range bounded inside (odbRead_range bounded ordered inside read)⟩

theorem ranges_served_sample
    : parseRange "bytes=-2".toList 3 = some (.ok (1, 2))
      ∧ odbFile [7, 8, 9] (some "bytes=-2".toList)
        = some ⟨206, .bytes [8, 9], some "bytes 1-2/3".toList⟩ := by
  have served := ranges_served "bytes=-2".toList 3 [7, 8, 9] (by decide)
  have read : parseRange "bytes=-2".toList 3 = some (.ok (1, 2)) := by
    decide
  exact ⟨read, (served.2.2 1 2 read).2.2.2⟩

/-- Blanks around a position are not of the grammar; a range that is the whole file has no content
range; and a file of more than eight mebibytes is not served whole.
-/
theorem ranges_not_as_assigned
    : (parseRange "bytes= 0 -".toList 1 = some (.ok (0, 0))
        ∧ ¬∃ spec, Spells strict "bytes= 0 -".toList spec)
      ∧ odbFile [7] (some "bytes=0-".toList) = some ⟨200, .bytes [7], none⟩
      ∧ odbFile (List.replicate (maxUnrangedOdbRead + 1) 7) none
        ≠ some ⟨200, .bytes (List.replicate (maxUnrangedOdbRead + 1) 7), none⟩ := by
  refine ⟨⟨by decide, ?_⟩, by decide, ?_⟩
  · rintro ⟨spec, first, last, whole, parts⟩
    have shape : " 0 -".toList = first ++ '-' :: last := by
      have split : "bytes= 0 -".toList = "bytes=".toList ++ " 0 -".toList := by decide
      rw [split] at whole
      exact List.append_cancel_left whole
    cases first with
    | nil =>
        revert shape
        simp
    | cons c first =>
        have blank : ' ' = c := (List.cons.inj shape).1
        subst blank
        cases spec with
        | suffix count => cases parts.1
        | start start =>
            have digits := parts.1.2.1
            revert digits
            simp
        | between start finish =>
            have digits := parts.1.2.1
            revert digits
            simp
  · have long : (List.replicate (maxUnrangedOdbRead + 1) (7 : UInt8)).length
        > maxUnrangedOdbRead := by
      rw [List.length_replicate]
      exact Nat.lt_succ_self _
    rw [odbFile, odbRead_long long]
    intro same
    cases same

end Gfs.Service.Ranges
