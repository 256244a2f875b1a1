import Gfs.Service.Bytes
import Gfs.Service.Leases
import Gfs.Types.Base64

/-! Mount capabilities and blob tickets (`gfs-service/src/auth/capability.rs`): their field
encoding, their tokens, and what an accepted token says. The MAC is a parameter: `mac key
message` is the tag `HMAC-SHA256` gives the message under the key.
-/

namespace Gfs.Service

open Gfs.Types

-- Numbers as bytes

/-- `i64::to_be_bytes`. -/
def i64Bytes (value : Int) : Bytes :=
  beBytes 8 (BitVec.ofInt 64 value).toNat

/-- `i64::from_be_bytes` of eight bytes. -/
def i64Value (bytes : Bytes) : Option Int :=
  if bytes.length = 8 then some (BitVec.ofNat 64 (beValue bytes)).toInt else none

-- Fields

/-- The token format prefix. -/
def tokenPrefix : Text := "gfs1".toList

/-- Domain tags, part of the signed bytes. -/
def tagMount : UInt8 := 1
def tagBlob : UInt8 := 2

/-- The signing key: at least 32 bytes of secret material. -/
abbrev CapabilityKey := { secret : Bytes // 32 ≤ secret.length }

def malformedCapability : GfsError := ⟨.unauthenticated, "malformed capability".toList⟩

/-- Each field under its four-byte length. -/
def framed (fields : List Bytes) : Bytes :=
  fields.flatMap (fun field => beBytes 4 field.length ++ field)

/-- Length-prefixed canonical encoding. -/
def encodeFields (tag : UInt8) (fields : List Bytes) : Bytes :=
  tag :: framed fields

/-- The fields of framed bytes, when they hold exactly so many. -/
def unframe : Nat → Bytes → Option (List Bytes)
  | 0, rest => if rest = [] then some [] else none
  | count + 1, rest =>
      if rest.length < 4 then none
      else
        let len := beValue (rest.take 4)
        let tail := rest.drop 4
        if tail.length < len then none
        else (unframe count (tail.drop len)).map (tail.take len :: ·)

def decodeFields (bytes : Bytes) (expectedTag : UInt8) (count : Nat)
    : Except GfsError (List Bytes) :=
  match bytes with
  | [] => .error malformedCapability
  | tag :: rest =>
      -- A blob ticket presented as a mount capability, or the reverse.
      if tag ≠ expectedTag then
        .error ⟨.unauthenticated, "capability is of the wrong kind".toList⟩
      else
        match unframe count rest with
        | some fields => .ok fields
        | none => .error malformedCapability

-- Tokens

section Signed

variable (mac : Bytes → Bytes → Bytes)

def assemble (key : CapabilityKey) (signed : Bytes) : Text :=
  tokenPrefix ++ '.' :: b64urlEncode signed ++ '.' :: b64urlEncode (mac key.1 signed)

/-- The signed bytes of a token. The signature is checked before any field is parsed. -/
def disassemble (key : CapabilityKey) (token : Text) : Except GfsError Bytes :=
  match token.splitOn '.' with
  | [prefix_, payload, tag] =>
      if prefix_ ≠ tokenPrefix then
        .error ⟨.unauthenticated, "unsupported capability format".toList⟩
      else
        match b64urlDecode payload, b64urlDecode tag with
        | some signed, some tag =>
            if mac key.1 signed = tag then .ok signed
            else .error ⟨.unauthenticated, "capability signature is invalid".toList⟩
        | _, _ => .error malformedCapability
  | _ => .error malformedCapability

/-- A decoded, verified mount capability. -/
structure MountCapability where
  subject : SubjectId
  repositoryId : RepositoryId
  commit : ObjectId
  mountId : MountId
  expiresAt : Timestamp

/-- A decoded, verified blob ticket. -/
structure BlobTicket where
  subject : SubjectId
  repositoryId : RepositoryId
  commit : ObjectId
  blob : ObjectId
  expiresAt : Timestamp

/-- A field read as text. -/
def textField (bytes : Bytes) : Except GfsError Text :=
  match Text.fromUtf8 bytes with
  | some text => .ok text
  | none => .error malformedCapability

/-- A field read as an object id. -/
def oidField (bytes : Bytes) : Except GfsError ObjectId := do
  match ObjectId.parseQualified (← textField bytes) with
  | .ok oid => return oid
  | .error refusal => throw ⟨.invalidArgument, "object id: ".toList ++ refusal.message⟩

/-- A field read as a whole-second time. -/
def timeField (bytes : Bytes) (malformed : GfsError) : Except GfsError Timestamp :=
  match i64Value bytes with
  | some secs => .ok ⟨secs, 0⟩
  | none => .error malformed

namespace MountCapability

def fields (cap : MountCapability) : List Bytes :=
  [Text.utf8 cap.subject.1, Text.utf8 cap.repositoryId.1, Text.utf8 cap.commit.toQualified,
    Text.utf8 cap.mountId.1, i64Bytes cap.expiresAt.secs]

def issue (key : CapabilityKey) (cap : MountCapability) : Text :=
  assemble mac key (encodeFields tagMount cap.fields)

/-- The capability of five fields. -/
def ofFields : List Bytes → Except GfsError MountCapability
  | [subject, repositoryId, commit, mountId, expiresAt] => do
      let subject ← parseChecked checkSubjectId (← textField subject)
      let repositoryId ← parseChecked checkRepositoryId (← textField repositoryId)
      let commit ← oidField commit
      let mountId ← parseChecked checkMountId (← textField mountId)
      let expiresAt ← timeField expiresAt malformedCapability
      return ⟨subject, repositoryId, commit, mountId, expiresAt⟩
  | _ => .error malformedCapability

/-- Verify a token, accepting one that expired within `tolerance` seconds. -/
def verifyWithTolerance (key : CapabilityKey) (token : Text) (now : Timestamp)
    (tolerance : Nat)
    : Except GfsError MountCapability := do
  let signed ← disassemble mac key token
  let cap ← ofFields (← decodeFields signed tagMount 5)
  let deadline := i64SaturatingAdd cap.expiresAt.secs (BitVec.ofNat 64 tolerance).toInt
  if now.secs > deadline then throw ⟨.expired, "mount capability has expired".toList⟩
  return cap

end MountCapability

namespace BlobTicket

def fields (ticket : BlobTicket) : List Bytes :=
  [Text.utf8 ticket.subject.1, Text.utf8 ticket.repositoryId.1,
    Text.utf8 ticket.commit.toQualified, Text.utf8 ticket.blob.toQualified,
    i64Bytes ticket.expiresAt.secs]

def issue (key : CapabilityKey) (ticket : BlobTicket) : Text :=
  assemble mac key (encodeFields tagBlob ticket.fields)

/-- The ticket of five fields. -/
def ofFields : List Bytes → Except GfsError BlobTicket
  | [subject, repositoryId, commit, blob, expiresAt] => do
      let subject ← parseChecked checkSubjectId (← textField subject)
      let repositoryId ← parseChecked checkRepositoryId (← textField repositoryId)
      let commit ← oidField commit
      let blob ← oidField blob
      let expiresAt ← timeField expiresAt ⟨.unauthenticated, "malformed ticket".toList⟩
      return ⟨subject, repositoryId, commit, blob, expiresAt⟩
  | _ => .error malformedCapability

def verify (key : CapabilityKey) (token : Text) (now : Timestamp)
    : Except GfsError BlobTicket := do
  let signed ← disassemble mac key token
  let ticket ← ofFields (← decodeFields signed tagBlob 5)
  if now.secs > ticket.expiresAt.secs then throw ⟨.expired, "blob ticket has expired".toList⟩
  return ticket

end BlobTicket

-- Grants

/-- What a token carries. -/
inductive Grant where
  | mount (cap : MountCapability)
  | blob (ticket : BlobTicket)

namespace Grant

def isMount : Grant → Bool
  | .mount _ => true
  | .blob _ => false

def expiresAt : Grant → Timestamp
  | .mount cap => cap.expiresAt
  | .blob ticket => ticket.expiresAt

/-- The object ids a grant names. -/
def oids : Grant → List ObjectId
  | .mount cap => [cap.commit]
  | .blob ticket => [ticket.commit, ticket.blob]

def issue (key : CapabilityKey) : Grant → Text
  | .mount cap => cap.issue mac key
  | .blob ticket => ticket.issue mac key

/-- The grant is one its types hold: sized ids and a whole second an `i64` holds. -/
structure Proper (grant : Grant) : Prop where
  sized : ∀ oid ∈ grant.oids, oid.Sized
  wholeSecond : grant.expiresAt.nanos = 0
  least : -2 ^ 63 ≤ grant.expiresAt.secs
  greatest : grant.expiresAt.secs < 2 ^ 63

end Grant

/-- A token is accepted as a grant. A blob ticket is never given a tolerance. -/
def Verifies (key : CapabilityKey) (token : Text) (now : Timestamp) (tolerance : Nat)
    : Grant → Prop
  | .mount cap => MountCapability.verifyWithTolerance mac key token now tolerance = .ok cap
  | .blob ticket => tolerance = 0 ∧ BlobTicket.verify mac key token now = .ok ticket

/-- An accepted token says exactly what was issued: grants round trip while they are fresh,
the token is the one issued for its grant, of that kind and under that key only, and it was
not past its expiry and the tolerance.
-/
structure SaysWhatWasIssued (key : CapabilityKey) (token : Text) (now : Timestamp)
    (tolerance : Nat) (grant : Grant)
    : Prop where
  roundTrip
    : ∀ other : Grant,
        other.Proper
        → ∀ time : Timestamp,
            time.secs ≤ other.expiresAt.secs
            → Verifies mac key (other.issue mac key) time 0 other
  oneKind
    : ∀ time grace other,
        Verifies mac key token time grace other → other.isMount = grant.isMount
  oneKey : ∀ other ≠ key, ∀ time grace found, ¬Verifies mac other token time grace found
  fresh : now.secs ≤ grant.expiresAt.secs + tolerance
  issued : token = grant.issue mac key

/-- The bytes of an object id hold no upper-case digit. -/
def LowerCase (field : Bytes) : Prop :=
  ∀ byte ∈ field, ¬(65 ≤ byte.toNat ∧ byte.toNat ≤ 70)

/-- A token is spelled as the service spells one: both its parts are canonical base64url, and
the object ids of its payload are in lower case.
-/
structure WellSpelled (isMount : Bool) (token : Text) : Prop where
  parts : ∀ part ∈ (token.splitOn '.').drop 1, IsCanonicalB64 part
  oids
    : ∀ signed ∈ (token.splitOn '.')[1]?.bind b64urlDecode,
        ∀ fields ∈ unframe 5 (signed.drop 1),
          (∀ field ∈ fields[2]?, LowerCase field)
          ∧ (isMount = false → ∀ field ∈ fields[3]?, LowerCase field)

end Signed

-- Numbers read back

theorem i64Value_i64Bytes {value : Int} (least : -2 ^ 63 ≤ value) (greatest : value < 2 ^ 63)
    : i64Value (i64Bytes value) = some value := by
  rw [i64Value, i64Bytes, if_pos (beBytes_length _ _), beValue_beBytes]
  congr 1
  have small := (BitVec.ofInt 64 value).isLt
  rw [Nat.mod_eq_of_lt (by simpa using small), BitVec.ofNat_toNat, BitVec.setWidth_eq,
    BitVec.toInt_ofInt]
  apply Int.bmod_eq_of_le
  · norm_num at least ⊢
    omega
  · norm_num at greatest ⊢
    omega

variable {bytes : Bytes}

theorem i64Bytes_i64Value {value : Int} (read : i64Value bytes = some value)
    : i64Bytes value = bytes ∧ -2 ^ 63 ≤ value ∧ value < 2 ^ 63 := by
  rw [i64Value] at read
  split at read
  · rename_i width
    cases read
    have small : beValue bytes < 2 ^ 64 := by
      have bound := beValue_lt bytes
      rw [width] at bound
      simpa using bound
    refine ⟨?_, BitVec.le_toInt _, BitVec.toInt_lt⟩
    have back := beBytes_beValue bytes
    rw [width] at back
    rw [i64Bytes, BitVec.ofInt_toInt, BitVec.toNat_ofNat, Nat.mod_eq_of_lt small, back]
  · cases read

-- Fields read back

/-- Framed fields are read as they are, each under its own length: none can be shifted into
another.
-/
theorem unframe_framed {fields : List Bytes}
    (short : ∀ field ∈ fields, field.length < 2 ^ 32)
    : unframe fields.length (framed fields) = some fields := by
  induction fields with
  | nil => rfl
  | cons field fields ih =>
      have here := short field List.mem_cons_self
      have rest := ih (fun other member => short other (List.mem_cons_of_mem _ member))
      have split : framed (field :: fields)
          = beBytes 4 field.length ++ (field ++ framed fields) := by
        simp [framed]
      have width : (beBytes 4 field.length).length = 4 := beBytes_length _ _
      have length : beValue (beBytes 4 field.length) = field.length := by
        rw [beValue_beBytes]
        exact Nat.mod_eq_of_lt (by simpa using here)
      rw [split, List.length_cons, unframe, if_neg (by simp)]
      simp only [List.take_left' width, List.drop_left' width, length]
      rw [if_neg (by simp), List.take_left, List.drop_left, rest]
      rfl

theorem frames_of_unframe {count : Nat} {fields : List Bytes}
    (read : unframe count bytes = some fields)
    : framed fields = bytes ∧ fields.length = count := by
  induction count generalizing bytes fields with
  | zero =>
      rw [unframe] at read
      split at read
      · rename_i empty
        cases read
        exact ⟨empty.symm, rfl⟩
      · cases read
  | succ count ih =>
      rw [unframe] at read
      split at read
      · cases read
      · rename_i room
        simp only at read
        split at read
        · cases read
        · rename_i fits
          obtain ⟨tail, inner, rfl⟩ := Option.map_eq_some_iff.mp read
          obtain ⟨same, counted⟩ := ih inner
          refine ⟨?_, by simp [counted]⟩
          have width : (bytes.take 4).length = 4 := by
            rw [List.length_take]
            omega
          have written : beBytes 4 (beValue (bytes.take 4)) = bytes.take 4 := by
            have back := beBytes_beValue (bytes.take 4)
            rwa [width] at back
          have taken : ((bytes.drop 4).take (beValue (bytes.take 4))).length
              = beValue (bytes.take 4) := by
            rw [List.length_take]
            omega
          calc framed ((bytes.drop 4).take (beValue (bytes.take 4)) :: tail)
              = beBytes 4 (beValue (bytes.take 4))
                ++ (bytes.drop 4).take (beValue (bytes.take 4)) ++ framed tail := by
                rw [framed, List.flatMap_cons, taken]
                rfl
            _ = bytes.take 4 ++ (bytes.drop 4).take (beValue (bytes.take 4))
                ++ (bytes.drop 4).drop (beValue (bytes.take 4)) := by rw [written, same]
            _ = bytes := by
                rw [List.append_assoc, List.take_append_drop, List.take_append_drop]

theorem decodeFields_encode {fields : List Bytes} (tag : UInt8)
    (short : ∀ field ∈ fields, field.length < 2 ^ 32)
    : decodeFields (encodeFields tag fields) tag fields.length = .ok fields := by
  simp only [decodeFields, encodeFields, ne_eq, not_true_eq_false, if_false,
    unframe_framed short]

theorem encodeFields_of_decode {tag : UInt8} {count : Nat}
    {fields : List Bytes}
    (decoded : decodeFields bytes tag count = .ok fields)
    : encodeFields tag fields = bytes ∧ unframe count (bytes.drop 1) = some fields := by
  cases bytes with
  | nil => cases decoded
  | cons first rest =>
      simp only [decodeFields] at decoded
      split at decoded
      · cases decoded
      · rename_i same
        cases read : unframe count rest with
        | none => rw [read] at decoded; cases decoded
        | some found =>
            rw [read] at decoded
            cases decoded
            rw [not_not] at same
            exact ⟨by rw [encodeFields, (frames_of_unframe read).1, same], read⟩

-- Tokens read back

private theorem b64urlEncode_noDot (bytes : Bytes) : '.' ∉ b64urlEncode bytes := by
  intro member
  obtain ⟨bits, same⟩ := mem_b64urlEncode member
  exact (b64Symbol_plain bits).2 same.symm

theorem splitOn_three {first second third : Text} (clearFirst : '.' ∉ first)
    (clearSecond : '.' ∉ second) (clearThird : '.' ∉ third)
    : (first ++ '.' :: second ++ '.' :: third).splitOn '.' = [first, second, third] := by
  rw [List.append_assoc, List.cons_append,
    List.splitOn_append_cons_self_of_not_mem clearFirst,
    List.splitOn_append_cons_self_of_not_mem clearSecond, List.splitOn_eq_singleton clearThird]

theorem eq_of_splitOn_three {token first second third : Text}
    (split : token.splitOn '.' = [first, second, third])
    : token = first ++ '.' :: second ++ '.' :: third := by
  have joined : ['.'].intercalate (token.splitOn '.') = token := List.intercalate_splitOn '.'
  rw [split] at joined
  simpa [List.intercalate] using joined.symm

section Accepted

variable {mac : Bytes → Bytes → Bytes} {key : CapabilityKey} {token : Text}

theorem splitOn_assemble (signed : Bytes)
    : (assemble mac key signed).splitOn '.'
      = [tokenPrefix, b64urlEncode signed, b64urlEncode (mac key.1 signed)] :=
  splitOn_three (by decide) (b64urlEncode_noDot _) (b64urlEncode_noDot _)

theorem disassemble_assemble (signed : Bytes)
    : disassemble mac key (assemble mac key signed) = .ok signed := by
  simp only [disassemble, splitOn_assemble, ne_eq, not_true_eq_false, if_false,
    b64urlDecode_encode, if_true]

/-- A token passes the signature check exactly when it has the prefix and two parts that
decode to bytes and to their tag under the key.
-/
theorem disassemble_eq_ok {signed : Bytes}
    : disassemble mac key token = .ok signed
      ↔ ∃ payload tag,
          token.splitOn '.' = [tokenPrefix, payload, tag]
          ∧ b64urlDecode payload = some signed
          ∧ b64urlDecode tag = some (mac key.1 signed) := by
  constructor
  · intro accepted
    rw [disassemble] at accepted
    split at accepted
    · rename_i prefix_ payload tag parts
      split at accepted
      · cases accepted
      · rename_i known
        split at accepted
        · rename_i bytes mark readPayload readTag
          split at accepted
          · rename_i same
            cases accepted
            rw [not_not] at known
            exact ⟨payload, tag, by rw [parts, known], readPayload, by rw [readTag, same]⟩
          · cases accepted
        · cases accepted
    · cases accepted
  · rintro ⟨payload, tag, parts, readPayload, readTag⟩
    simp only [disassemble, parts, ne_eq, not_true_eq_false, if_false, readPayload, readTag,
      if_true]

/-- A token that passes the signature check is the one assembled from its bytes exactly when
both its parts are canonical.
-/
theorem eq_assemble_iff {signed : Bytes} (accepted : disassemble mac key token = .ok signed)
    : token = assemble mac key signed
      ↔ ∀ part ∈ (token.splitOn '.').drop 1, IsCanonicalB64 part := by
  obtain ⟨payload, tag, parts, readPayload, readTag⟩ := disassemble_eq_ok.mp accepted
  have written : token = assemble mac key signed
      ↔ b64urlEncode signed = payload ∧ b64urlEncode (mac key.1 signed) = tag := by
    constructor
    · intro same
      have split : (assemble mac key signed).splitOn '.' = _ := splitOn_assemble signed
      rw [← same, parts] at split
      simp only [List.cons.injEq, and_true, true_and] at split
      exact ⟨split.1.symm, split.2.symm⟩
    · rintro ⟨rfl, rfl⟩
      exact eq_of_splitOn_three parts
  rw [written, isCanonicalB64_iff readPayload, isCanonicalB64_iff readTag, parts]
  simp

theorem disassemble_key {signed signed' : Bytes} {key' : CapabilityKey}
    (unforgeable : ∀ k m k' m', mac k m = mac k' m' → k = k' ∧ m = m')
    (accepted : disassemble mac key token = .ok signed)
    (accepted' : disassemble mac key' token = .ok signed')
    : key = key' ∧ signed = signed' := by
  obtain ⟨payload, tag, parts, readPayload, readTag⟩ := disassemble_eq_ok.mp accepted
  obtain ⟨payload', tag', parts', readPayload', readTag'⟩ := disassemble_eq_ok.mp accepted'
  rw [parts] at parts'
  simp only [List.cons.injEq, and_true, true_and] at parts'
  obtain ⟨rfl, rfl⟩ := parts'
  rw [readTag] at readTag'
  obtain ⟨sameKey, sameSigned⟩ := unforgeable _ _ _ _ (Option.some.inj readTag')
  exact ⟨Subtype.ext sameKey, sameSigned⟩

end Accepted

-- Typed fields read back

theorem textField_eq_ok {text : Text}
    : textField bytes = .ok text ↔ bytes = text.utf8 := by
  rw [textField, ← Text.fromUtf8_eq_some]
  cases Text.fromUtf8 bytes with
  | none => simp
  | some found => simp

theorem textField_utf8 (text : Text) : textField text.utf8 = .ok text :=
  textField_eq_ok.mpr rfl

theorem oidField_toQualified {oid : ObjectId} (sized : oid.Sized)
    : oidField (Text.utf8 oid.toQualified) = .ok oid := by
  simp only [oidField, textField_utf8, bind, Except.bind,
    ObjectId.parseQualified_toQualified sized]
  rfl

theorem text_of_oidField {oid : ObjectId} (read : oidField bytes = .ok oid)
    : ∃ text : Text, bytes = text.utf8 ∧ ObjectId.parseQualified text = .ok oid := by
  simp only [oidField] at read
  cases asText : textField bytes with
  | error refusal => rw [asText] at read; cases read
  | ok text =>
      rw [asText] at read
      refine ⟨text, textField_eq_ok.mp asText, ?_⟩
      simp only [bind, Except.bind] at read
      split at read
      · rename_i found parsed
        cases read
        exact parsed
      · cases read

theorem lowerCase_utf8 {text : Text} (ascii : ∀ c ∈ text, c.toNat < 128)
    : LowerCase text.utf8 ↔ ∀ c ∈ text, isUpperHex c = false := by
  have code : ∀ c ∈ text, c.toNat.toUInt8.toNat = c.toNat := by
    intro c member
    have small := ascii c member
    change c.toNat % 256 = c.toNat
    omega
  rw [LowerCase, Text.utf8_ascii ascii, List.forall_mem_map]
  refine forall₂_congr fun c member => ?_
  rw [code c member, isUpperHex]
  simp

theorem oidField_canonical {oid : ObjectId} (read : oidField bytes = .ok oid)
    : Text.utf8 oid.toQualified = bytes ↔ LowerCase bytes := by
  obtain ⟨text, rfl, parsed⟩ := text_of_oidField read
  rw [lowerCase_utf8 (ObjectId.ascii_of_parseQualified parsed),
    ← ObjectId.toQualified_parseQualified parsed]
  constructor
  · intro same
    have back := Text.fromUtf8_eq_some.mpr same.symm
    rw [Text.fromUtf8_eq_some.mpr rfl] at back
    exact (Option.some.inj back).symm
  · rintro rfl
    rfl

theorem oidField_sized {oid : ObjectId} (read : oidField bytes = .ok oid)
    : oid.Sized := by
  obtain ⟨text, _, parsed⟩ := text_of_oidField read
  exact ObjectId.sized_of_parseQualified parsed

theorem timeField_eq_ok {malformed : GfsError} {time : Timestamp}
    : timeField bytes malformed = .ok time
      ↔ i64Value bytes = some time.secs ∧ time.nanos = 0 := by
  obtain ⟨secs, nanos⟩ := time
  rw [timeField]
  cases i64Value bytes with
  | none => simp
  | some found => simp [eq_comm]

theorem utf8_of_checked {check : Text → Except GfsError Unit} {text : Text}
    {value : { text : Text // check text = .ok () }}
    (asText : textField bytes = .ok text) (checked : parseChecked check text = .ok value)
    : bytes = Text.utf8 value.1 := by
  rw [textField_eq_ok.mp asText, val_of_parseChecked checked]

namespace MountCapability

/-- Five fields read as a capability exactly when each is the bytes of its value, but for the
commit, which may be spelled otherwise.
-/
theorem ofFields_eq_ok {raw : List Bytes} {cap : MountCapability}
    : ofFields raw = .ok cap
      ↔ cap.expiresAt.nanos = 0
        ∧ ∃ commit expiry,
            raw = [Text.utf8 cap.subject.1, Text.utf8 cap.repositoryId.1, commit,
              Text.utf8 cap.mountId.1, expiry]
            ∧ oidField commit = .ok cap.commit
            ∧ i64Value expiry = some cap.expiresAt.secs := by
  constructor
  · intro read
    rw [ofFields.eq_def] at read
    split at read
    · rename_i commit _ expiry
      obtain ⟨_, asSubject, read⟩ := bind_eq_ok.mp read
      obtain ⟨subject, isSubject, read⟩ := bind_eq_ok.mp read
      obtain ⟨_, asRepository, read⟩ := bind_eq_ok.mp read
      obtain ⟨repositoryId, isRepository, read⟩ := bind_eq_ok.mp read
      obtain ⟨oid, isCommit, read⟩ := bind_eq_ok.mp read
      obtain ⟨_, asMount, read⟩ := bind_eq_ok.mp read
      obtain ⟨mountId, isMount, read⟩ := bind_eq_ok.mp read
      obtain ⟨time, isTime, read⟩ := bind_eq_ok.mp read
      cases read
      obtain ⟨secs, whole⟩ := timeField_eq_ok.mp isTime
      refine ⟨whole, commit, expiry, ?_, isCommit, secs⟩
      rw [utf8_of_checked asSubject isSubject, utf8_of_checked asRepository isRepository,
        utf8_of_checked asMount isMount]
    · cases read
  · rintro ⟨whole, commit, expiry, rfl, readCommit, readExpiry⟩
    obtain ⟨subject, repositoryId, oid, mountId, time⟩ := cap
    have readTime : timeField expiry malformedCapability = .ok time :=
      timeField_eq_ok.mpr ⟨readExpiry, whole⟩
    simp only [ofFields, textField_utf8, parseChecked_val, readCommit, readTime, bind,
      Except.bind]
    rfl

end MountCapability

namespace BlobTicket

/-- Five fields read as a ticket exactly when each is the bytes of its value, but for the two
object ids, which may be spelled otherwise.
-/
theorem ofFields_eq_ok {raw : List Bytes} {ticket : BlobTicket}
    : ofFields raw = .ok ticket
      ↔ ticket.expiresAt.nanos = 0
        ∧ ∃ commit blob expiry,
            raw = [Text.utf8 ticket.subject.1, Text.utf8 ticket.repositoryId.1, commit, blob,
              expiry]
            ∧ oidField commit = .ok ticket.commit
            ∧ oidField blob = .ok ticket.blob
            ∧ i64Value expiry = some ticket.expiresAt.secs := by
  constructor
  · intro read
    rw [ofFields.eq_def] at read
    split at read
    · rename_i commit blob expiry
      obtain ⟨_, asSubject, read⟩ := bind_eq_ok.mp read
      obtain ⟨subject, isSubject, read⟩ := bind_eq_ok.mp read
      obtain ⟨_, asRepository, read⟩ := bind_eq_ok.mp read
      obtain ⟨repositoryId, isRepository, read⟩ := bind_eq_ok.mp read
      obtain ⟨oid, isCommit, read⟩ := bind_eq_ok.mp read
      obtain ⟨blobOid, isBlob, read⟩ := bind_eq_ok.mp read
      obtain ⟨time, isTime, read⟩ := bind_eq_ok.mp read
      cases read
      obtain ⟨secs, whole⟩ := timeField_eq_ok.mp isTime
      refine ⟨whole, commit, blob, expiry, ?_, isCommit, isBlob, secs⟩
      rw [utf8_of_checked asSubject isSubject, utf8_of_checked asRepository isRepository]
    · cases read
  · rintro ⟨whole, commit, blob, expiry, rfl, readCommit, readBlob, readExpiry⟩
    obtain ⟨subject, repositoryId, oid, blobOid, time⟩ := ticket
    have readTime
        : timeField expiry ⟨.unauthenticated, "malformed ticket".toList⟩ = .ok time :=
      timeField_eq_ok.mpr ⟨readExpiry, whole⟩
    simp only [ofFields, textField_utf8, parseChecked_val, readCommit, readBlob, readTime,
      bind, Except.bind]
    rfl

end BlobTicket

-- Grants read back

namespace Grant

/-- The domain tag of a grant's kind. -/
def tag : Grant → UInt8
  | .mount _ => tagMount
  | .blob _ => tagBlob

/-- The signed fields of a grant. -/
def fields : Grant → List Bytes
  | .mount cap => cap.fields
  | .blob ticket => ticket.fields

/-- Fields are read as a grant. -/
def ReadFrom (raw : List Bytes) : Grant → Prop
  | .mount cap => MountCapability.ofFields raw = .ok cap
  | .blob ticket => BlobTicket.ofFields raw = .ok ticket

/-- The fields that hold a grant's object ids are in lower case. -/
def LowerCaseOids (isMount : Bool) (raw : List Bytes) : Prop :=
  (∀ field ∈ raw[2]?, LowerCase field)
  ∧ (isMount = false → ∀ field ∈ raw[3]?, LowerCase field)

/-- A grant is accepted at a time. -/
def InTime (now : Timestamp) (tolerance : Nat) : Grant → Prop
  | .mount cap =>
      now.secs ≤ i64SaturatingAdd cap.expiresAt.secs (BitVec.ofNat 64 tolerance).toInt
  | .blob ticket => tolerance = 0 ∧ now.secs ≤ ticket.expiresAt.secs

theorem issue_eq (mac : Bytes → Bytes → Bytes) (key : CapabilityKey) (grant : Grant)
    : grant.issue mac key = assemble mac key (encodeFields grant.tag grant.fields) := by
  cases grant with
  | mount cap => rfl
  | blob ticket => rfl

theorem fields_length (grant : Grant) : grant.fields.length = 5 := by
  cases grant with
  | mount cap => rfl
  | blob ticket => rfl

theorem isMount_eq_of_tag {grant other : Grant} (same : grant.tag = other.tag)
    : grant.isMount = other.isMount := by
  cases grant with
  | mount cap =>
      cases other with
      | mount cap' => rfl
      | blob ticket => exact absurd same (show tagMount ≠ tagBlob by decide)
  | blob ticket =>
      cases other with
      | mount cap => exact absurd same (show tagBlob ≠ tagMount by decide)
      | blob ticket' => rfl

variable {grant : Grant}

/-- Every field of a proper grant fits its length prefix. -/
theorem Proper.short (proper : grant.Proper)
    : ∀ field ∈ grant.fields, field.length < 2 ^ 32 := by
  intro field member
  cases grant with
  | mount cap =>
      have subject := cap.subject.len_le
      have repository := cap.repositoryId.len_le
      have mountId := cap.mountId.len_le
      have commit := ObjectId.toQualified_short (proper.sized cap.commit (by simp [oids]))
      simp only [maxSubjectIdBytes, maxRepositoryIdBytes, maxMountIdBytes] at *
      simp only [fields, MountCapability.fields, List.mem_cons, List.not_mem_nil,
        or_false] at member
      rcases member with rfl | rfl | rfl | rfl | rfl
      · rw [Text.utf8_length]; omega
      · rw [Text.utf8_length]; omega
      · exact commit
      · rw [Text.utf8_length]; omega
      · rw [i64Bytes, beBytes_length]; omega
  | blob ticket =>
      have subject := ticket.subject.len_le
      have repository := ticket.repositoryId.len_le
      have commit := ObjectId.toQualified_short (proper.sized ticket.commit (by simp [oids]))
      have blob := ObjectId.toQualified_short (proper.sized ticket.blob (by simp [oids]))
      simp only [maxSubjectIdBytes, maxRepositoryIdBytes] at *
      simp only [fields, BlobTicket.fields, List.mem_cons, List.not_mem_nil,
        or_false] at member
      rcases member with rfl | rfl | rfl | rfl | rfl
      · rw [Text.utf8_length]; omega
      · rw [Text.utf8_length]; omega
      · exact commit
      · exact blob
      · rw [i64Bytes, beBytes_length]; omega

theorem Proper.readFrom (proper : grant.Proper)
    : ReadFrom grant.fields grant := by
  have second := i64Value_i64Bytes proper.least proper.greatest
  cases grant with
  | mount cap =>
      exact MountCapability.ofFields_eq_ok.mpr ⟨proper.wholeSecond, _, _, rfl,
        oidField_toQualified (proper.sized cap.commit (by simp [oids])), second⟩
  | blob ticket =>
      exact BlobTicket.ofFields_eq_ok.mpr ⟨proper.wholeSecond, _, _, _, rfl,
        oidField_toQualified (proper.sized ticket.commit (by simp [oids])),
        oidField_toQualified (proper.sized ticket.blob (by simp [oids])), second⟩

/-- Whatever is read is a proper grant. -/
theorem ReadFrom.proper {raw : List Bytes} (read : ReadFrom raw grant)
    : grant.Proper := by
  cases grant with
  | mount cap =>
      obtain ⟨whole, commit, expiry, _, readCommit, readExpiry⟩ :=
        MountCapability.ofFields_eq_ok.mp read
      obtain ⟨_, least, greatest⟩ := i64Bytes_i64Value readExpiry
      refine ⟨?_, whole, least, greatest⟩
      intro oid member
      rw [List.mem_singleton.mp member]
      exact oidField_sized readCommit
  | blob ticket =>
      obtain ⟨whole, commit, blob, expiry, _, readCommit, readBlob, readExpiry⟩ :=
        BlobTicket.ofFields_eq_ok.mp read
      obtain ⟨_, least, greatest⟩ := i64Bytes_i64Value readExpiry
      refine ⟨?_, whole, least, greatest⟩
      intro oid member
      rcases List.mem_cons.mp member with rfl | other
      · exact oidField_sized readCommit
      · rw [List.mem_singleton.mp other]
        exact oidField_sized readBlob

/-- Fields read as a grant are that grant's own exactly when their object ids are in lower
case.
-/
theorem ReadFrom.canonical {raw : List Bytes} (read : ReadFrom raw grant)
    : grant.fields = raw ↔ LowerCaseOids grant.isMount raw := by
  cases grant with
  | mount cap =>
      obtain ⟨_, commit, expiry, rfl, readCommit, readExpiry⟩ :=
        MountCapability.ofFields_eq_ok.mp read
      obtain ⟨second, _⟩ := i64Bytes_i64Value readExpiry
      simp only [fields, MountCapability.fields, List.cons.injEq, and_true, true_and, second,
        oidField_canonical readCommit]
      simp [LowerCaseOids, isMount]
  | blob ticket =>
      obtain ⟨_, commit, blob, expiry, rfl, readCommit, readBlob, readExpiry⟩ :=
        BlobTicket.ofFields_eq_ok.mp read
      obtain ⟨second, _⟩ := i64Bytes_i64Value readExpiry
      simp only [fields, BlobTicket.fields, List.cons.injEq, and_true, true_and, second,
        oidField_canonical readCommit, oidField_canonical readBlob]
      simp [LowerCaseOids, isMount]

theorem Proper.inTime {now : Timestamp} (proper : grant.Proper)
    (fresh : now.secs ≤ grant.expiresAt.secs)
    : InTime now 0 grant := by
  have least := proper.least
  have greatest := proper.greatest
  cases grant with
  | mount cap =>
      simp only [InTime, i64SaturatingAdd, i64Saturate, expiresAt] at *
      have zero : (BitVec.ofNat 64 0).toInt = 0 := by decide
      omega
  | blob ticket => exact ⟨rfl, fresh⟩

theorem Proper.fresh {now : Timestamp} {tolerance : Nat}
    (proper : grant.Proper) (inTime : InTime now tolerance grant)
    : now.secs ≤ grant.expiresAt.secs + tolerance := by
  have least := proper.least
  cases grant with
  | mount cap =>
      have small : (BitVec.ofNat 64 tolerance).toInt ≤ tolerance := by
        rw [BitVec.toInt_eq_toNat_cond, BitVec.toNat_ofNat]
        split <;> omega
      simp only [InTime, i64SaturatingAdd, i64Saturate, expiresAt] at *
      omega
  | blob ticket =>
      obtain ⟨rfl, inTime⟩ := inTime
      simpa [expiresAt] using inTime

end Grant

section Accepted

variable {mac : Bytes → Bytes → Bytes} {key : CapabilityKey} {token : Text}

/-- A token is accepted as a grant exactly when its signature is valid, its signed bytes are
fields under the kind's tag, they read as the grant, and it is in time.
-/
theorem verifies_iff {now : Timestamp} {tolerance : Nat} {grant : Grant}
    : Verifies mac key token now tolerance grant
      ↔ ∃ signed raw,
          disassemble mac key token = .ok signed
          ∧ decodeFields signed grant.tag 5 = .ok raw
          ∧ grant.ReadFrom raw
          ∧ grant.InTime now tolerance := by
  cases grant with
  | mount cap =>
      simp only [Verifies, MountCapability.verifyWithTolerance, bind_eq_ok, Grant.tag,
        Grant.ReadFrom, Grant.InTime]
      constructor
      · rintro ⟨signed, valid, raw, decoded, found, read, checked⟩
        split at checked
        · obtain ⟨_, thrown, _⟩ := bind_eq_ok.mp checked
          cases thrown
        · rename_i inTime
          cases checked
          exact ⟨signed, raw, valid, decoded, read, not_lt.mp inTime⟩
      · rintro ⟨signed, raw, valid, decoded, read, inTime⟩
        refine ⟨signed, valid, raw, decoded, cap, read, ?_⟩
        rw [if_neg (not_lt.mpr inTime)]
        rfl
  | blob ticket =>
      simp only [Verifies, BlobTicket.verify, bind_eq_ok, Grant.tag, Grant.ReadFrom,
        Grant.InTime]
      constructor
      · rintro ⟨exact_, signed, valid, raw, decoded, found, read, checked⟩
        split at checked
        · obtain ⟨_, thrown, _⟩ := bind_eq_ok.mp checked
          cases thrown
        · rename_i inTime
          cases checked
          exact ⟨signed, raw, valid, decoded, read, exact_, not_lt.mp inTime⟩
      · rintro ⟨signed, raw, valid, decoded, read, exact_, inTime⟩
        refine ⟨exact_, signed, valid, raw, decoded, ticket, read, ?_⟩
        rw [if_neg (not_lt.mpr inTime)]
        rfl

theorem verifies_issue {grant : Grant} {now : Timestamp} (proper : grant.Proper)
    (fresh : now.secs ≤ grant.expiresAt.secs)
    : Verifies mac key (grant.issue mac key) now 0 grant := by
  refine verifies_iff.mpr ⟨encodeFields grant.tag grant.fields, grant.fields, ?_, ?_,
    proper.readFrom, proper.inTime fresh⟩
  · rw [grant.issue_eq]
    exact disassemble_assemble _
  · have decoded := decodeFields_encode grant.tag proper.short
    rwa [grant.fields_length] at decoded

variable {now : Timestamp} {tolerance : Nat} {grant : Grant}

theorem Verifies.eq_issue_iff (accepted : Verifies mac key token now tolerance grant)
    : token = grant.issue mac key ↔ WellSpelled grant.isMount token := by
  obtain ⟨signed, raw, valid, decoded, read, inTime⟩ := verifies_iff.mp accepted
  obtain ⟨encoded, framedTail⟩ := encodeFields_of_decode decoded
  obtain ⟨payload, tag, parts, readPayload, _⟩ := disassemble_eq_ok.mp valid
  have oids
      : (∀ signed ∈ (token.splitOn '.')[1]?.bind b64urlDecode,
          ∀ fields ∈ unframe 5 (signed.drop 1),
            (∀ field ∈ fields[2]?, LowerCase field)
            ∧ (grant.isMount = false → ∀ field ∈ fields[3]?, LowerCase field))
        ↔ grant.fields = raw := by
    rw [List.drop_one] at framedTail
    rw [read.canonical, parts]
    simp [readPayload, framedTail, Grant.LowerCaseOids]
  rw [grant.issue_eq]
  constructor
  · intro same
    have again : disassemble mac key token = .ok (encodeFields grant.tag grant.fields) := by
      rw [same]
      exact disassemble_assemble _
    rw [valid] at again
    cases again
    have sameFields : grant.fields = raw := by
      have split := (encodeFields_of_decode decoded).2
      have framedFields := unframe_framed read.proper.short
      rw [grant.fields_length] at framedFields
      simp only [encodeFields, List.drop_one, List.tail_cons] at split
      rw [framedFields] at split
      exact Option.some.inj split
    exact ⟨(eq_assemble_iff valid).mp same, oids.mpr sameFields⟩
  · rintro ⟨canonical, lower⟩
    rw [oids.mp lower, encoded]
    exact (eq_assemble_iff valid).mpr canonical

theorem Verifies.unique {key' : CapabilityKey} {now' : Timestamp} {tolerance' : Nat}
    {other : Grant} (unforgeable : ∀ k m k' m', mac k m = mac k' m' → k = k' ∧ m = m')
    (accepted : Verifies mac key token now tolerance grant)
    (accepted' : Verifies mac key' token now' tolerance' other)
    : key = key' ∧ other.isMount = grant.isMount := by
  obtain ⟨signed, raw, valid, decoded, _⟩ := verifies_iff.mp accepted
  obtain ⟨signed', raw', valid', decoded', _⟩ := verifies_iff.mp accepted'
  obtain ⟨sameKey, rfl⟩ := disassemble_key unforgeable valid valid'
  refine ⟨sameKey, Grant.isMount_eq_of_tag ?_⟩
  have here := (encodeFields_of_decode decoded).1
  have there := (encodeFields_of_decode decoded').1
  rw [← there] at here
  exact (List.cons.inj here).1.symm

-- Tokens say what was issued

/-- Where no two keys or messages share a tag, an accepted token says exactly what was issued
if and only if it is well spelled. Witness: `issued_token_accepted`.
-/
theorem accepted_token_as_issued (mac : Bytes → Bytes → Bytes)
    (unforgeable : ∀ k m k' m', mac k m = mac k' m' → k = k' ∧ m = m')
    (key : CapabilityKey) (token : Text) (now : Timestamp) (tolerance : Nat) (grant : Grant)
    (accepted : Verifies mac key token now tolerance grant)
    : SaysWhatWasIssued mac key token now tolerance grant
      ↔ WellSpelled grant.isMount token := by
  constructor
  · intro meaning
    exact accepted.eq_issue_iff.mp meaning.issued
  · intro spelled
    refine
      { roundTrip := fun other proper time fresh => verifies_issue proper fresh,
        oneKind := fun time grace other again => (accepted.unique unforgeable again).2,
        oneKey := fun other different time grace found again =>
          different (accepted.unique unforgeable again).1.symm,
        fresh := ?_,
        issued := accepted.eq_issue_iff.mpr spelled }
    obtain ⟨_, _, _, _, read, inTime⟩ := verifies_iff.mp accepted
    exact read.proper.fresh inTime

theorem disassemble_padded (signed : Bytes)
    : disassemble mac key (assemble mac key signed ++ ['=']) = .ok signed := by
  have plain : b64urlDecode (b64urlEncode (mac key.1 signed)) = some (mac key.1 signed) :=
    b64urlDecode_encode _
  have clear : '.' ∉ b64urlEncode (mac key.1 signed) ++ ['='] := by
    intro member
    rcases List.mem_append.mp member with inside | last
    · exact b64urlEncode_noDot _ inside
    · cases List.mem_singleton.mp last
  refine disassemble_eq_ok.mpr ⟨b64urlEncode signed,
    b64urlEncode (mac key.1 signed) ++ ['='], ?_, b64urlDecode_encode _, ?_⟩
  · rw [assemble, List.append_assoc, List.cons_append]
    exact splitOn_three (by decide) (b64urlEncode_noDot _) clear
  · rwa [b64urlDecode, List.rdropWhile_concat_pos _ _ _ (by decide), ← b64urlDecode]

end Accepted

-- Issued and padded tokens

/-- A tag function no two keys or messages share a value of: the key with each byte marked,
then the message.
-/
def markedTag (key message : Bytes) : Bytes :=
  key.flatMap (fun byte => [1, byte]) ++ 0 :: message

theorem markedTag_unforgeable (k m k' m' : Bytes) (same : markedTag k m = markedTag k' m')
    : k = k' ∧ m = m' := by
  induction k generalizing k' with
  | nil =>
      cases k' with
      | nil => exact ⟨rfl, (List.cons.inj same).2⟩
      | cons byte k' => cases (List.cons.inj same).1
  | cons byte k ih =>
      cases k' with
      | nil => cases (List.cons.inj same).1
      | cons byte' k' =>
          simp only [markedTag, List.flatMap_cons, List.cons_append, List.nil_append,
            List.cons.injEq, true_and] at same
          obtain ⟨rfl, rest⟩ := same
          obtain ⟨rfl, rfl⟩ := ih k' rest
          exact ⟨rfl, rfl⟩

/-- A key of 32 zero bytes. -/
def zeroKey : CapabilityKey := ⟨List.replicate 32 0, by decide⟩

/-- Alice's mount of a commit of all zeros, for the first hundred seconds. -/
def aliceGrant : Grant :=
  .mount
    { subject := ⟨"alice".toList, by decide⟩,
      repositoryId := ⟨"demo".toList, by decide⟩,
      commit := ⟨.sha1, List.replicate 20 0⟩,
      mountId := ⟨"m1".toList, by decide⟩,
      expiresAt := ⟨100, 0⟩ }

theorem aliceGrant_proper : aliceGrant.Proper where
  sized := by
    intro oid member
    rw [List.mem_singleton.mp member]
    decide
  wholeSecond := rfl
  least := by decide
  greatest := by decide

theorem aliceGrant_verifies
    : Verifies markedTag zeroKey (aliceGrant.issue markedTag zeroKey) ⟨60, 0⟩ 0 aliceGrant :=
  verifies_issue aliceGrant_proper (by decide)

/-- The token issued for Alice's mount says what was issued. -/
theorem issued_token_accepted
    : SaysWhatWasIssued markedTag zeroKey (aliceGrant.issue markedTag zeroKey) ⟨60, 0⟩ 0
        aliceGrant :=
  (accepted_token_as_issued markedTag markedTag_unforgeable zeroKey _ ⟨60, 0⟩ 0 aliceGrant
    aliceGrant_verifies).mpr (aliceGrant_verifies.eq_issue_iff.mp rfl)

/-- The same token with a padding character after it is accepted as the same grant, though it
was never issued.
-/
theorem padded_token_accepted
    : Verifies markedTag zeroKey (aliceGrant.issue markedTag zeroKey ++ ['=']) ⟨60, 0⟩ 0
        aliceGrant
      ∧ ¬SaysWhatWasIssued markedTag zeroKey (aliceGrant.issue markedTag zeroKey ++ ['='])
          ⟨60, 0⟩ 0 aliceGrant := by
  constructor
  · obtain ⟨signed, raw, valid, rest⟩ := verifies_iff.mp aliceGrant_verifies
    rw [aliceGrant.issue_eq, disassemble_assemble] at valid
    cases valid
    refine verifies_iff.mpr ⟨_, raw, ?_, rest⟩
    rw [aliceGrant.issue_eq]
    exact disassemble_padded _
  · intro meaning
    have longer := congrArg List.length meaning.issued
    simp at longer

end Gfs.Service
