import Gfs.Types.Base64
import Gfs.Types.Oid

/-! The display form of a byte path (`gfs-types/src/path.rs`): what is UTF-8 as it is, any other
byte as an escape, and a literal backslash doubled. Every path is read back from its display.
-/

namespace Gfs.Types

namespace Text

/-- `Utf8Error::valid_up_to`: the length of the longest prefix that is UTF-8. -/
def validUpTo (bytes : Bytes) : Nat :=
  Nat.findGreatest (fun index => (fromUtf8 (bytes.take index)).isSome) bytes.length

/-- How many bytes continue the character a decoder stands in before one that cannot; nothing,
where the input ends first.
-/
def continued : Option Decoding → Bytes → Option Nat
  | none, _ => some 0
  | some _, [] => none
  | some decoding, byte :: rest =>
      if decoding.least ≤ byte.toNat ∧ byte.toNat ≤ decoding.greatest then
        (continued (nextByte byte.toNat (some decoding)).2 rest).map (· + 1)
      else some 0

/-- `Utf8Error::error_len`: the length of the invalid sequence that bytes begin with; nothing,
where the input ends inside a character.
-/
def errorLen : Bytes → Option Nat
  | [] => none
  | byte :: rest => (continued (firstByte byte.toNat).2 rest).map (· + 1)

theorem fromUtf8_validUpTo (bytes : Bytes)
    : ∃ text, fromUtf8 (bytes.take (validUpTo bytes)) = some text := by
  have empty : (fromUtf8 (bytes.take 0)).isSome = true := by
    rw [List.take_zero, Option.isSome_iff_exists]
    exact ⟨[], fromUtf8_eq_some.mpr rfl⟩
  have spec :=
    @Nat.findGreatest_spec _ (fun index => (fromUtf8 (bytes.take index)).isSome = true) _
      bytes.length (Nat.zero_le _) empty
  exact Option.isSome_iff_exists.mp spec

theorem validUpTo_lt {bytes : Bytes} (broken : fromUtf8 bytes = none)
    : validUpTo bytes < bytes.length := by
  apply Nat.lt_of_le_of_ne (Nat.findGreatest_le _)
  intro whole
  obtain ⟨text, valid⟩ := fromUtf8_validUpTo bytes
  rw [validUpTo, whole, List.take_length, broken] at valid
  cases valid

theorem errorLen_pos {bytes : Bytes} {len : Nat} (broken : errorLen bytes = some len)
    : 0 < len := by
  cases bytes with
  | nil => cases broken
  | cons byte rest =>
      obtain ⟨count, -, rfl⟩ := Option.map_eq_some_iff.mp broken
      exact Nat.succ_pos count

end Text

-- The display form

/-- What is displayed for a character. -/
def escapedChar (c : Char) : Text :=
  if c = '\\' then ['\\', '\\']
  else if c = '\n' then ['\\', 'n']
  else if c = '\r' then ['\\', 'r']
  else if c = '\t' then ['\\', 't']
  else [c]

/-- `push_escaped_str`. -/
def escapedStr (text : Text) : Text :=
  text.flatMap escapedChar

/-- The escape of a byte that is no part of a character. -/
def escapedByte (byte : UInt8) : Text :=
  ['\\', 'x', hexChar (byte.toNat / 16), hexChar (byte.toNat % 16)]

/-- The length of the invalid sequence that a path goes on with after its valid part. -/
def badLen (rest : Bytes) : Nat :=
  (Text.errorLen (rest.drop (Text.validUpTo rest))).getD (rest.length - Text.validUpTo rest)

theorem badLen_pos {rest : Bytes} (broken : Text.fromUtf8 rest = none) : 0 < badLen rest := by
  rw [badLen]
  cases len : Text.errorLen (rest.drop (Text.validUpTo rest)) with
  | none => exact Nat.sub_pos_of_lt (Text.validUpTo_lt broken)
  | some len => exact Text.errorLen_pos ‹_›

/-- Lossless display form: valid UTF-8 verbatim, anything else escaped. -/
def BytePath.escaped (rest : BytePath) : Text :=
  match _ : Text.fromUtf8 rest with
  | some text => escapedStr text
  | none =>
      let good := Text.validUpTo rest
      escapedStr ((Text.fromUtf8 (rest.take good)).getD [])
      ++ ((rest.drop good).take (badLen rest)).flatMap escapedByte
      ++ escaped (rest.drop (good + badLen rest))
  termination_by rest.length
  decreasing_by
    rename_i broken
    have less := Text.validUpTo_lt broken
    have some_ := badLen_pos broken
    rw [List.length_drop]
    omega

theorem escaped_of_valid {rest : BytePath} {text : Text}
    (valid : Text.fromUtf8 rest = some text)
    : rest.escaped = escapedStr text := by
  rw [BytePath.escaped.eq_def]
  split
  · rename_i other known
    rw [Option.some.inj (known.symm.trans valid)]
  · rename_i broken
    rw [valid] at broken
    cases broken

theorem escaped_of_broken {rest : BytePath} {text : Text} (broken : Text.fromUtf8 rest = none)
    (valid : Text.fromUtf8 (rest.take (Text.validUpTo rest)) = some text)
    : rest.escaped
      = escapedStr text
        ++ ((rest.drop (Text.validUpTo rest)).take (badLen rest)).flatMap escapedByte
        ++ BytePath.escaped (rest.drop (Text.validUpTo rest + badLen rest)) := by
  rw [BytePath.escaped.eq_def]
  split
  · rename_i other known
    rw [broken] at known
    cases known
  · simp only [valid, Option.getD_some]

-- Reading it back

/-- The bytes a display form stands for. -/
def unescaped : Text → Bytes
  | '\\' :: '\\' :: rest => 92 :: unescaped rest
  | '\\' :: 'n' :: rest => 10 :: unescaped rest
  | '\\' :: 'r' :: rest => 13 :: unescaped rest
  | '\\' :: 't' :: rest => 9 :: unescaped rest
  | '\\' :: 'x' :: high :: low :: rest =>
      (((hexVal high).getD 0) * 16 + (hexVal low).getD 0).toUInt8 :: unescaped rest
  | c :: rest => String.utf8EncodeChar c ++ unescaped rest
  | [] => []

theorem unescaped_char (c : Char) (more : Text)
    : unescaped (escapedChar c ++ more) = String.utf8EncodeChar c ++ unescaped more := by
  rw [escapedChar]
  split
  · rename_i backslash
    rw [backslash]
    rfl
  · rename_i plain
    split
    · rename_i newline
      rw [newline]
      rfl
    · split
      · rename_i carriage
        rw [carriage]
        rfl
      · split
        · rename_i tab
          rw [tab]
          rfl
        · rw [List.singleton_append, unescaped.eq_def]
          split <;> simp_all

theorem unescaped_str (text more : Text)
    : unescaped (escapedStr text ++ more) = text.utf8 ++ unescaped more := by
  induction text with
  | nil => rfl
  | cons c text ih =>
      rw [escapedStr, List.flatMap_cons, List.append_assoc, ← escapedStr, unescaped_char, ih,
        ← List.append_assoc]
      rfl

theorem unescaped_bytes (bytes : Bytes) (more : Text)
    : unescaped (bytes.flatMap escapedByte ++ more) = bytes ++ unescaped more := by
  induction bytes with
  | nil => rfl
  | cons byte bytes ih =>
      have bound := byte.toNat_lt
      have high : hexVal (hexChar (byte.toNat / 16)) = some (byte.toNat / 16) :=
        hexVal_hexChar (by omega)
      have low : hexVal (hexChar (byte.toNat % 16)) = some (byte.toNat % 16) :=
        hexVal_hexChar (by omega)
      have whole : byte.toNat / 16 * 16 + byte.toNat % 16 = byte.toNat := by omega
      rw [List.flatMap_cons, List.append_assoc, escapedByte]
      simp only [List.cons_append, List.nil_append, unescaped, high, low, Option.getD_some, whole,
        ih]
      rw [Nat.toUInt8, UInt8.ofNat_toNat]

theorem unescaped_escaped (path : BytePath) : unescaped path.escaped = path := by
  induction path using BytePath.escaped.induct with
  | case1 rest text valid =>
      have whole := unescaped_str text []
      rw [List.append_nil, show unescaped [] = [] from rfl, List.append_nil] at whole
      rw [escaped_of_valid valid, whole]
      exact (Text.fromUtf8_eq_some.mp valid).symm
  | case2 rest broken good ih =>
      obtain ⟨text, valid⟩ := Text.fromUtf8_validUpTo rest
      have verbatim : rest.take good = text.utf8 := Text.fromUtf8_eq_some.mp valid
      rw [escaped_of_broken broken valid, List.append_assoc, unescaped_str, unescaped_bytes, ih,
        ← verbatim, ← List.drop_drop, List.take_append_drop, List.take_append_drop]

theorem escaped_injective : Function.Injective BytePath.escaped :=
  Function.LeftInverse.injective unescaped_escaped

-- Base64url

theorem b64Val_isSome {c : Char} : (b64Val c).isSome = true ↔ c ∈ b64Symbols := by
  constructor
  · intro read
    obtain ⟨bits, read⟩ := Option.isSome_iff_exists.mp read
    obtain ⟨small, symbol⟩ := b64Symbol_of_val read
    rw [← symbol, b64Symbol, Nat.mod_eq_of_lt small, List.getD_eq_getElem _ _ small]
    exact List.getElem_mem _
  · have every : b64Symbols.all (fun symbol => (b64Val symbol).isSome) = true := by
      decide
    exact List.all_eq_true.mp every c

theorem any_same (read : Option Nat) (decodes : Bool)
    : read.any (fun _ => decodes) = (read.isSome && decodes) := by
  cases read with
  | none => rfl
  | some bits => rfl

/-- Groups decode exactly when every character is of the alphabet and none is alone. -/
theorem b64DecodeGroups_isSome (text : Text)
    : (b64DecodeGroups text).isSome = true
      ↔ (∀ c ∈ text, c ∈ b64Symbols) ∧ text.length % 4 ≠ 1 := by
  induction text using b64DecodeGroups.induct with
  | case1 => simp [b64DecodeGroups]
  | case2 c => simp [b64DecodeGroups]
  | case3 a b =>
      simp only [b64DecodeGroups, Option.bind_eq_bind, Option.pure_def, Option.isSome_bind,
        Option.isSome_some, any_same]
      simp [b64Val_isSome]
  | case4 a b c =>
      simp only [b64DecodeGroups, Option.bind_eq_bind, Option.pure_def, Option.isSome_bind,
        Option.isSome_some, any_same]
      simp [b64Val_isSome]
  | case5 a b c d rest ih =>
      have later : (b64DecodeGroups rest).any (fun _ => true) = (b64DecodeGroups rest).isSome :=
        Option.any_true
      simp only [b64DecodeGroups, Option.bind_eq_bind, Option.pure_def, Option.isSome_bind,
        Option.isSome_some, any_same, later]
      simp only [Bool.and_eq_true, ih, b64Val_isSome, List.forall_mem_cons, List.length_cons,
        and_assoc]
      rw [show (rest.length + 1 + 1 + 1 + 1) % 4 = rest.length % 4 by omega]

/-- The codecs of byte texts are faithful: decoding inverts encoding; what decodes is, without
its padding, over the alphabet and has no character alone; different paths display differently.
-/
theorem byteText_codecs_faithful
    : (∀ bytes, b64urlDecode (b64urlEncode bytes) = some bytes)
      ∧ (∀ text : Text,
          (b64urlDecode text).isSome = true
          ↔ (∀ c ∈ text.rdropWhile (· = '='), c ∈ b64Symbols)
            ∧ (text.rdropWhile (· = '=')).length % 4 ≠ 1)
      ∧ Function.Injective BytePath.escaped :=
  ⟨b64urlDecode_encode, fun _ => b64DecodeGroups_isSome _, escaped_injective⟩

end Gfs.Types
