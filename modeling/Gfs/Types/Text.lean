import Mathlib

/-! Rust strings: their characters, the few operations on them the service uses, and
`String::from_utf8_lossy`.
-/

namespace Gfs.Types

/-- A Rust string, as its characters. -/
abbrev Text := List Char

namespace Text

/-- `str::len`, in bytes. -/
def len (text : Text) : Nat :=
  (text.map Char.utf8Size).sum

/-- `str::trim_matches` of one character. -/
def trimMatches (text : Text) (c : Char) : Text :=
  (text.dropWhile (· = c)).rdropWhile (· = c)

/-- Whether two characters stand side by side: `str::contains` of a two-character string. -/
def hasPair (first second : Char) : Text → Bool
  | [] => false
  | [_] => false
  | a :: b :: rest => (a = first && b = second) || hasPair first second (b :: rest)

/-- `str::splitn(3, ' ')`, when it yields three fields. -/
def threeFields (text : Text) : Option (Text × Text × Text) :=
  match text.dropWhile (· ≠ ' ') with
  | [] => none
  | _ :: rest =>
      match rest.dropWhile (· ≠ ' ') with
      | [] => none
      | _ :: last => some (text.takeWhile (· ≠ ' '), rest.takeWhile (· ≠ ' '), last)

/-- The character an invalid sequence of bytes is read as. -/
def replacement : Char := Char.ofNat 0xFFFD

/-- Where a UTF-8 decoder stands inside a character: the bytes still owed, the bounds of the
next one and the bits so far.
-/
structure Decoding where
  owed : Nat
  least : Nat
  greatest : Nat
  bits : Nat

/-- A byte between characters: the character it is, the one it begins, or a replacement. -/
def firstByte (byte : Nat) : Text × Option Decoding :=
  if byte < 0x80 then ([Char.ofNat byte], none)
  else if byte < 0xC2 then ([replacement], none)
  else if byte < 0xE0 then ([], some ⟨1, 0x80, 0xBF, byte % 0x20⟩)
  else if byte < 0xF0 then
    ([],
      some
        ⟨2, if byte = 0xE0 then 0xA0 else 0x80, if byte = 0xED then 0x9F else 0xBF,
          byte % 0x10⟩)
  else if byte < 0xF5 then
    ([],
      some
        ⟨3, if byte = 0xF0 then 0x90 else 0x80, if byte = 0xF4 then 0x8F else 0xBF,
          byte % 0x08⟩)
  else ([replacement], none)

/-- A byte inside a character, or between two: what it completes and where it leaves the
decoder. A byte that cannot continue a character ends it as a replacement.
-/
def nextByte (byte : Nat) : Option Decoding → Text × Option Decoding
  | none => firstByte byte
  | some decoding =>
      if decoding.least ≤ byte ∧ byte ≤ decoding.greatest then
        let bits := decoding.bits * 0x40 + byte % 0x40
        if decoding.owed = 1 then ([Char.ofNat bits], none)
        else ([], some ⟨decoding.owed - 1, 0x80, 0xBF, bits⟩)
      else
        let (read, state) := firstByte byte
        (replacement :: read, state)

/-- `String::from_utf8_lossy`, from where the decoder stands: each longest part of an invalid
sequence that could begin a character is one replacement.
-/
def lossyFrom : Option Decoding → List UInt8 → Text
  | none, [] => []
  | some _, [] => [replacement]
  | state, byte :: rest =>
      (nextByte byte.toNat state).1 ++ lossyFrom (nextByte byte.toNat state).2 rest

def fromUtf8Lossy (bytes : List UInt8) : Text :=
  lossyFrom none bytes

/-- `str::as_bytes`. -/
def utf8 (text : Text) : List UInt8 :=
  text.flatMap String.utf8EncodeChar

/-- `String::from_utf8`. -/
def fromUtf8 (bytes : List UInt8) : Option Text :=
  if valid : bytes.toByteArray.IsValidUTF8 then
    some (String.fromUTF8 bytes.toByteArray valid).toList
  else none

-- UTF-8

theorem utf8_length (text : Text) : text.utf8.length = text.len := by
  simp [utf8, len, List.length_flatMap]

theorem utf8_ascii {text : Text} (ascii : ∀ c ∈ text, c.toNat < 128)
    : text.utf8 = text.map (fun c => c.toNat.toUInt8) := by
  induction text with
  | nil => rfl
  | cons c text ih =>
      obtain ⟨small, ascii⟩ := List.forall_mem_cons.mp ascii
      have single : String.utf8EncodeChar c = [c.toNat.toUInt8] := by
        apply String.utf8EncodeChar_eq_singleton
        rw [Char.utf8Size_eq_one_iff]
        exact UInt32.le_iff_toNat_le.mpr (by change c.toNat ≤ 127; omega)
      rw [List.map_cons, ← ih ascii, utf8, List.flatMap_cons, single]
      rfl

theorem utf8_append (front back : Text) : utf8 (front ++ back) = front.utf8 ++ back.utf8 :=
  List.flatMap_append

theorem utf8_flatMap {α : Type} (list : List α) (write : α → Text)
    : utf8 (list.flatMap write) = list.flatMap fun a => utf8 (write a) :=
  List.flatMap_assoc

theorem utf8_wide {c : Char} (wide : 128 ≤ c.toNat) : ∀ b ∈ utf8 [c], 128 ≤ b.toNat := by
  intro b member
  rw [utf8, List.flatMap_singleton, String.utf8EncodeChar] at member
  have least : 128 ≤ c.val.toNat := wide
  generalize c.val.toNat = v at member least
  split_ifs at member with ascii two three
  · omega
  all_goals
    simp only [List.mem_cons, List.not_mem_nil, or_false] at member
    rcases member with rfl | rfl | rfl | rfl <;> rw [UInt8.toNat_ofNat'] <;> omega

theorem utf8_char {c : Char} (ascii : c.toNat < 128) : utf8 [c] = [c.toNat.toUInt8] := by
  have all : ∀ x ∈ [c], x.toNat < 128 := by simpa using ascii
  simpa using utf8_ascii all

theorem toNat_of_mem_utf8 {c : Char} {b : UInt8} (member : b ∈ utf8 [c]) (small : b.toNat < 128)
    : c.toNat = b.toNat := by
  by_cases ascii : c.toNat < 128
  · rw [utf8_char ascii, List.mem_singleton] at member
    rw [member, UInt8.toNat_ofNat']
    omega
  · have wide := utf8_wide (Nat.le_of_not_lt ascii) b member
    omega

theorem exists_head_of_utf8 {text : Text} {b : UInt8} (first : text.utf8.head? = some b)
    : ∃ c, text.head? = some c ∧ b ∈ utf8 [c] := by
  cases text with
  | nil => cases first
  | cons c text =>
      have split : utf8 (c :: text) = utf8 [c] ++ utf8 text := utf8_append [c] text
      rw [split, List.head?_append_of_ne_nil _ (by simp [utf8])] at first
      exact ⟨c, rfl, List.mem_of_mem_head? first⟩

theorem exists_last_of_utf8 {text : Text} {b : UInt8} (last : text.utf8.getLast? = some b)
    : ∃ c, text.getLast? = some c ∧ b ∈ utf8 [c] := by
  cases text using List.reverseRecOn with
  | nil => cases last
  | append_singleton text c =>
      rw [utf8_append, List.getLast?_append_of_ne_nil _ (by simp [utf8])] at last
      exact ⟨c, by simp, List.mem_of_mem_getLast? last⟩

private theorem toByteArray_inj {left right : List UInt8}
    (same : left.toByteArray = right.toByteArray)
    : left = right := by
  simpa using congrArg ByteArray.data same

theorem fromUtf8_eq_some {bytes : List UInt8} {text : Text}
    : fromUtf8 bytes = some text ↔ bytes = text.utf8 := by
  rw [fromUtf8]
  constructor
  · intro read
    split at read
    · rename_i valid
      have same : (String.fromUTF8 bytes.toByteArray valid).toList = text := Option.some.inj read
      have encoded := String.utf8Encode_toList (b := String.fromUTF8 bytes.toByteArray valid)
      rw [same] at encoded
      exact (toByteArray_inj encoded).symm
    · cases read
  · rintro rfl
    have valid : text.utf8.toByteArray.IsValidUTF8 := ⟨text, rfl⟩
    rw [dif_pos valid]
    have same : String.fromUTF8 text.utf8.toByteArray valid = String.ofList text := by
      rw [← String.toByteArray_inj, String.toByteArray_ofList]
      rfl
    rw [same, String.toList_ofList]

theorem utf8_injective : Function.Injective utf8 := by
  intro left right same
  have read : fromUtf8 left.utf8 = some right := fromUtf8_eq_some.mpr same
  rw [fromUtf8_eq_some.mpr rfl] at read
  exact Option.some.inj read

-- Pairs of characters

theorem splitOn_append (divider : Char) (before after : Text)
    : (before ++ divider :: after).splitOn divider
      = before.splitOn divider ++ after.splitOn divider := by
  simp only [List.splitOn_eq_splitOnP]
  exact List.splitOnP_append_cons _ _ (by simp)

theorem splitOn_clean {divider : Char} {part : Text} (clean : divider ∉ part)
    : part.splitOn divider = [part] := by
  rw [List.splitOn_eq_splitOnP]
  apply List.splitOnP_eq_singleton
  intro c member
  simpa using fun same : c = divider => clean (same ▸ member)

theorem hasPair_split {first second divider : Char} (notFirst : divider ≠ first)
    (notSecond : divider ≠ second) (before after : Text)
    : hasPair first second (before ++ divider :: after)
      = (hasPair first second before || hasPair first second after) := by
  induction before with
  | nil =>
      cases after with
      | nil => rfl
      | cons head tail => simp [hasPair, notFirst]
  | cons head before ih =>
      cases before with
      | nil => simpa [hasPair, notSecond] using ih
      | cons next before =>
          simp only [List.cons_append, hasPair] at ih ⊢
          rw [ih, Bool.or_assoc]

end Text

end Gfs.Types
