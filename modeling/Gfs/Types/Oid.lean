import Gfs.Types.Basic
import Gfs.Types.Error

/-! Object ids as text: `algorithm:hex` (`gfs-types/src/oid.rs`). -/

namespace Gfs.Types

def HashAlgorithm.rawLen : HashAlgorithm → Nat
  | .sha1 => 20
  | .sha256 => 32
  | .lfsSha256 => 32

def HashAlgorithm.hexLen (algorithm : HashAlgorithm) : Nat :=
  algorithm.rawLen * 2

def HashAlgorithm.name : HashAlgorithm → Text
  | .sha1 => "sha1".toList
  | .sha256 => "sha256".toList
  | .lfsSha256 => "lfs-sha256".toList

def HashAlgorithm.fromName (name : Text) : Option HashAlgorithm :=
  if name = "sha1".toList then some .sha1
  else if name = "sha256".toList then some .sha256
  else if name = "lfs-sha256".toList then some .lfsSha256
  else none

inductive OidError where
  | length (expected actual : Nat)
  | notHex
  | missingAlgorithm
  | unknownAlgorithm
  deriving DecidableEq, Repr

def OidError.message : OidError → Text
  | .length expected actual =>
      "expected ".toList ++ Nat.toDigits 10 expected ++ " units, got ".toList
      ++ Nat.toDigits 10 actual
  | .notHex => "not a hex digest".toList
  | .missingAlgorithm => "missing `algorithm:` prefix".toList
  | .unknownAlgorithm => "unknown hash algorithm".toList

/-- `char::from_digit` in base 16. -/
def hexChar (value : Nat) : Char :=
  "0123456789abcdef".toList.getD value '0'

/-- The value of a hexadecimal digit, of either case. -/
def hexVal (c : Char) : Option Nat :=
  if 48 ≤ c.toNat ∧ c.toNat ≤ 57 then some (c.toNat - 48)
  else if 97 ≤ c.toNat ∧ c.toNat ≤ 102 then some (c.toNat - 87)
  else if 65 ≤ c.toNat ∧ c.toNat ≤ 70 then some (c.toNat - 55)
  else none

/-- Whether every character is a hex digit. -/
def isHex (text : Text) : Bool :=
  text ≠ [] && text.all (fun c => (hexVal c).isSome)

def toHex (raw : Bytes) : Text :=
  raw.flatMap (fun byte => [hexChar (byte.toNat / 16), hexChar (byte.toNat % 16)])

/-- Digits read in pairs. -/
def fromHexPairs : Text → Option Bytes
  | [] => some []
  | [_] => none
  | hi :: lo :: rest => do
      let hi ← hexVal hi
      let lo ← hexVal lo
      let bytes ← fromHexPairs rest
      return (hi * 16 + lo).toUInt8 :: bytes

namespace ObjectId

/-- An object id has the length of its algorithm: every constructor checks it. -/
def Sized (oid : ObjectId) : Prop :=
  oid.raw.length = oid.algorithm.rawLen

instance (oid : ObjectId) : Decidable oid.Sized :=
  inferInstanceAs (Decidable (_ = _))

/-- Parse a full-length hex digest in a known-algorithm context. -/
def fromHex (algorithm : HashAlgorithm) (hex : Text) : Except OidError ObjectId :=
  if hex.len ≠ algorithm.hexLen then .error (.length algorithm.hexLen hex.len)
  else
    match fromHexPairs hex with
    | some raw => .ok ⟨algorithm, raw⟩
    | none => .error .notHex

/-- Parse the canonical qualified form. -/
def parseQualified (text : Text) : Except OidError ObjectId :=
  match text.dropWhile (· ≠ ':') with
  | [] => .error .missingAlgorithm
  | _ :: hex =>
      match HashAlgorithm.fromName (text.takeWhile (· ≠ ':')) with
      | none => .error .unknownAlgorithm
      | some algorithm => fromHex algorithm hex

def toQualified (oid : ObjectId) : Text :=
  oid.algorithm.name ++ ':' :: toHex oid.raw

end ObjectId

-- Round trips

theorem HashAlgorithm.fromName_name (algorithm : HashAlgorithm)
    : fromName algorithm.name = some algorithm := by
  cases algorithm <;> decide

theorem hexVal_hexChar {value : Nat} (small : value < 16)
    : hexVal (hexChar value) = some value := by
  revert value
  decide

private theorem hexChar_ascii (value : Nat) : (hexChar value).utf8Size = 1 := by
  by_cases small : value < 16
  · revert value
    decide
  · have default_ : hexChar value = '0' :=
      List.getD_eq_default _ _ (by simpa using not_lt.mp small)
    rw [default_]
    decide

theorem fromHexPairs_toHex (raw : Bytes) : fromHexPairs (toHex raw) = some raw := by
  induction raw with
  | nil => rfl
  | cons byte raw ih =>
      have bound := byte.toNat_lt
      have high : hexVal (hexChar (byte.toNat / 16)) = some (byte.toNat / 16) :=
        hexVal_hexChar (by omega)
      have low : hexVal (hexChar (byte.toNat % 16)) = some (byte.toNat % 16) :=
        hexVal_hexChar (by omega)
      simp only [toHex, List.flatMap_cons, List.cons_append, List.nil_append, fromHexPairs]
      rw [high, low, show List.flatMap _ raw = toHex raw from rfl, ih]
      have whole : byte.toNat / 16 * 16 + byte.toNat % 16 = byte.toNat := by omega
      simp only [Option.bind_eq_bind, Option.bind_some, Option.pure_def, whole]
      rw [Nat.toUInt8, UInt8.ofNat_toNat]

theorem toHex_len (raw : Bytes) : (toHex raw).len = raw.length * 2 := by
  induction raw with
  | nil => rfl
  | cons byte raw ih =>
      have step : toHex (byte :: raw)
          = hexChar (byte.toNat / 16) :: hexChar (byte.toNat % 16) :: toHex raw := rfl
      rw [step, Text.len, List.map_cons, List.map_cons, List.sum_cons, List.sum_cons,
        hexChar_ascii, hexChar_ascii, List.length_cons]
      rw [Text.len] at ih
      omega

variable {oid : ObjectId}

theorem ObjectId.toQualified_short (sized : oid.Sized)
    : (Text.utf8 oid.toQualified).length < 2 ^ 32 := by
  have named : (Text.len oid.algorithm.name) ≤ 10 := by
    cases oid.algorithm <;> decide
  have counted : oid.raw.length ≤ 32 := by
    rw [show oid.raw.length = oid.algorithm.rawLen from sized]
    cases oid.algorithm <;> decide
  have whole : Text.len oid.toQualified
      = Text.len oid.algorithm.name + (1 + Text.len (toHex oid.raw)) := by
    simp only [Text.len, ObjectId.toQualified, List.map_append, List.sum_append, List.map_cons,
      List.sum_cons]
    rfl
  rw [Text.utf8_length, whole, toHex_len]
  omega

theorem ObjectId.parseQualified_toQualified (sized : oid.Sized)
    : parseQualified oid.toQualified = .ok oid := by
  obtain ⟨algorithm, raw⟩ := oid
  have clean : ∀ c ∈ algorithm.name, decide (c ≠ ':') = true := by
    have every : algorithm.name.all (· ≠ ':') = true := by cases algorithm <;> decide
    exact List.all_eq_true.mp every
  have after : (toQualified ⟨algorithm, raw⟩).dropWhile (· ≠ ':') = ':' :: toHex raw := by
    rw [toQualified, List.dropWhile_append_of_pos clean]
    simp
  have before : (toQualified ⟨algorithm, raw⟩).takeWhile (· ≠ ':') = algorithm.name := by
    rw [toQualified, List.takeWhile_append_of_pos clean]
    simp
  rw [parseQualified, after, before]
  simp only [HashAlgorithm.fromName_name]
  rw [fromHex, toHex_len, show raw.length = algorithm.rawLen from sized, HashAlgorithm.hexLen]
  simp [fromHexPairs_toHex]

theorem fromHexPairs_length {hex : Text} {raw : Bytes} (read : fromHexPairs hex = some raw)
    : raw.length * 2 = hex.length ∧ ∀ c ∈ hex, (hexVal c).isSome := by
  induction hex using fromHexPairs.induct generalizing raw with
  | case1 => cases read; simp
  | case2 c => cases read
  | case3 hi lo rest ih =>
      simp only [fromHexPairs] at read
      cases high : hexVal hi with
      | none => simp [high] at read
      | some high' =>
          cases low : hexVal lo with
          | none => simp [high, low] at read
          | some low' =>
              cases tail : fromHexPairs rest with
              | none => simp [high, low, tail] at read
              | some bytes =>
                  simp only [high, low, tail, Option.bind_eq_bind, Option.bind_some,
                    Option.pure_def, Option.some.injEq] at read
                  obtain ⟨sized, digits⟩ := ih tail
                  rw [← read]
                  refine ⟨by simp only [List.length_cons]; omega, ?_⟩
                  intro c member
                  rcases List.mem_cons.mp member with rfl | member
                  · simp [high]
                  · rcases List.mem_cons.mp member with rfl | member
                    · simp [low]
                    · exact digits c member

theorem toNat_lt_of_hexVal {c : Char} (digit : (hexVal c).isSome) : c.toNat < 128 := by
  by_contra large
  simp only [hexVal] at digit
  split at digit
  · omega
  · split at digit
    · omega
    · split at digit
      · omega
      · cases digit

private theorem utf8Size_of_hexVal {c : Char} (digit : (hexVal c).isSome) : c.utf8Size = 1 := by
  have small := toNat_lt_of_hexVal digit
  rw [Char.utf8Size_eq_one_iff]
  exact UInt32.le_iff_toNat_le.mpr (by change c.toNat ≤ 127; omega)

/-- Every parsed object id has its algorithm's length. -/
theorem ObjectId.sized_of_parseQualified {text : Text} (parsed : parseQualified text = .ok oid)
    : oid.Sized := by
  rw [parseQualified] at parsed
  cases after : text.dropWhile (· ≠ ':') with
  | nil => rw [after] at parsed; cases parsed
  | cons colon hex =>
      rw [after] at parsed
      simp only at parsed
      cases named : HashAlgorithm.fromName (text.takeWhile (· ≠ ':')) with
      | none => rw [named] at parsed; cases parsed
      | some algorithm =>
          rw [named] at parsed
          simp only [fromHex] at parsed
          split at parsed
          · cases parsed
          · rename_i sized
            cases read : fromHexPairs hex with
            | none => rw [read] at parsed; cases parsed
            | some raw =>
                rw [read] at parsed
                cases parsed
                obtain ⟨count, digits⟩ := fromHexPairs_length read
                have ascii : Text.len hex = hex.length := by
                  rw [Text.len, List.map_congr_left
                    (fun c member => utf8Size_of_hexVal (digits c member))]
                  simp
                simp only [ne_eq, Decidable.not_not, ascii, HashAlgorithm.hexLen] at sized
                simp only [Sized]
                omega

-- Canonical spelling

/-- An upper-case hexadecimal digit. -/
def isUpperHex (c : Char) : Bool :=
  65 ≤ c.toNat && c.toNat ≤ 70

theorem hexChar_hexVal {c : Char} {value : Nat} (read : hexVal c = some value)
    : value < 16 ∧ (hexChar value = c ↔ isUpperHex c = false) := by
  have small : c.toNat < 128 := toNat_lt_of_hexVal (by rw [read]; rfl)
  have table : ∀ code < 128, ∀ value ∈ hexVal (Char.ofNat code),
      value < 16 ∧ (hexChar value = Char.ofNat code ↔ isUpperHex (Char.ofNat code) = false) := by
    unfold hexChar
    rw [String.toList_ofList]
    decide
  have here := table c.toNat small value (by rw [Char.ofNat_toNat]; exact read)
  rwa [Char.ofNat_toNat] at here

/-- Digits read in pairs are written back as they were exactly when none is in upper case. -/
theorem toHex_fromHexPairs {hex : Text} {raw : Bytes} (read : fromHexPairs hex = some raw)
    : toHex raw = hex ↔ ∀ c ∈ hex, isUpperHex c = false := by
  induction hex using fromHexPairs.induct generalizing raw with
  | case1 => cases read; simp [toHex]
  | case2 c => cases read
  | case3 hi lo rest ih =>
      simp only [fromHexPairs, Option.bind_eq_bind] at read
      obtain ⟨high, readHigh, read⟩ := Option.bind_eq_some_iff.mp read
      obtain ⟨low, readLow, read⟩ := Option.bind_eq_some_iff.mp read
      obtain ⟨bytes, readRest, read⟩ := Option.bind_eq_some_iff.mp read
      cases read
      obtain ⟨smallHigh, digitHigh⟩ := hexChar_hexVal readHigh
      obtain ⟨smallLow, digitLow⟩ := hexChar_hexVal readLow
      have value : (high * 16 + low).toUInt8.toNat = high * 16 + low := by
        simp only [Nat.toUInt8_eq, UInt8.toNat_ofNat']
        omega
      have step : toHex ((high * 16 + low).toUInt8 :: bytes)
          = hexChar high :: hexChar low :: toHex bytes := by
        rw [toHex, List.flatMap_cons, value,
          show (high * 16 + low) / 16 = high by omega,
          show (high * 16 + low) % 16 = low by omega]
        rfl
      simp only [step, List.cons.injEq, digitHigh, digitLow, ih readRest, List.forall_mem_cons]

theorem ObjectId.parts_of_parseQualified {text : Text} (parsed : parseQualified text = .ok oid)
    : ∃ hex, text = oid.algorithm.name ++ ':' :: hex ∧ fromHexPairs hex = some oid.raw := by
  rw [parseQualified] at parsed
  cases after : text.dropWhile (· ≠ ':') with
  | nil => rw [after] at parsed; cases parsed
  | cons colon hex =>
      have isColon : colon = ':' := by
        have stops := List.head?_dropWhile_not (· ≠ ':') text
        rw [after] at stops
        simpa using stops
      subst isColon
      rw [after] at parsed
      simp only at parsed
      cases named : HashAlgorithm.fromName (text.takeWhile (· ≠ ':')) with
      | none => rw [named] at parsed; cases parsed
      | some algorithm =>
          have spelled : text.takeWhile (· ≠ ':') = algorithm.name := by
            simp only [HashAlgorithm.fromName] at named
            split at named
            · cases named; assumption
            · split at named
              · cases named; assumption
              · split at named
                · cases named; assumption
                · cases named
          rw [named] at parsed
          simp only [fromHex] at parsed
          split at parsed
          · cases parsed
          · cases read : fromHexPairs hex with
            | none => rw [read] at parsed; cases parsed
            | some raw =>
                rw [read] at parsed
                cases parsed
                refine ⟨hex, ?_, read⟩
                rw [← spelled, ← after, List.takeWhile_append_dropWhile]

private theorem name_lowerCase (algorithm : HashAlgorithm)
    : ∀ c ∈ algorithm.name ++ [':'], isUpperHex c = false ∧ c.toNat < 128 := by
  have every
      : (algorithm.name ++ [':']).all
          (fun c => isUpperHex c = false && decide (c.toNat < 128)) = true := by
    cases algorithm <;> decide
  intro c member
  simpa using List.all_eq_true.mp every c member

/-- A parsed text is the canonical one of its object id exactly when it has no upper-case
digit.
-/
theorem ObjectId.toQualified_parseQualified {text : Text} (parsed : parseQualified text = .ok oid)
    : oid.toQualified = text ↔ ∀ c ∈ text, isUpperHex c = false := by
  obtain ⟨hex, rfl, read⟩ := parts_of_parseQualified parsed
  have named := name_lowerCase oid.algorithm
  rw [toQualified, List.append_cancel_left_eq, List.cons.injEq]
  simp only [true_and, toHex_fromHexPairs read]
  constructor
  · intro lower c member
    rcases List.mem_append.mp member with before | after
    · exact (named c (List.mem_append_left _ before)).1
    · rcases List.mem_cons.mp after with rfl | digit
      · exact (named ':' (by simp)).1
      · exact lower c digit
  · intro lower c member
    exact lower c (by simp [member])

theorem ObjectId.ascii_of_parseQualified {text : Text} (parsed : parseQualified text = .ok oid)
    : ∀ c ∈ text, c.toNat < 128 := by
  obtain ⟨hex, rfl, read⟩ := parts_of_parseQualified parsed
  have named := name_lowerCase oid.algorithm
  intro c member
  rcases List.mem_append.mp member with before | after
  · exact (named c (List.mem_append_left _ before)).2
  · rcases List.mem_cons.mp after with rfl | digit
    · exact (named ':' (by simp)).2
    · exact toNat_lt_of_hexVal ((fromHexPairs_length read).2 c digit)

end Gfs.Types
