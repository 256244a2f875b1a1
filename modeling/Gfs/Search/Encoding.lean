import Gfs.Lib.Varints
import Gfs.Search.Manifest

/-! The bytes of a path table (`gfs-search/src/manifest.rs`): a format version, front-coded paths
and a digest; and what is derived from the table where it is built or read back, the blob keys
and the ordinals that carry each.
-/

namespace Gfs.Search.Manifests

open Gfs.Types
open Gfs.Lib
open Gfs.Search.Index (BlobKey Bitmap)
open Std (ExtTreeMap)

-- What is derived

/-- One commit's searchable contents, with the ways into them by blob key. -/
structure Table where
  commit : ObjectId
  paths : List PathEntry
  members : Bitmap
  /-- An ordinal has 32 bits. -/
  reverse : ExtTreeMap BlobKey (List Nat)

/-- What one path adds to the blob keys and their ordinals. -/
def derive (derived : Bitmap × ExtTreeMap BlobKey (List Nat)) (row : PathEntry × Nat)
    : Bitmap × ExtTreeMap BlobKey (List Nat) :=
  (insert row.1.key derived.1,
    derived.2.insert row.1.key ((derived.2[row.1.key]?.getD []) ++ [row.2 % 2 ^ 32]))

def Table.fromSorted (commit : ObjectId) (paths : List PathEntry) : Table :=
  let derived := paths.zipIdx.foldl derive (∅, ∅)
  ⟨commit, paths, derived.1, derived.2⟩

/-- The ordinals of the paths carrying a blob key. -/
def Table.pathsForKey (table : Table) (key : BlobKey) : List Nat :=
  table.reverse[key]?.getD []

/-- The manifest with what is derived from its paths. -/
def Manifest.whole (manifest : Manifest) : Table :=
  .fromSorted manifest.commit manifest.paths

-- Encoding

/-- `GFSMAN` and two NULs. -/
def magic : Bytes := [71, 70, 83, 77, 65, 78, 0, 0]

def manifestFormatVersion : Nat := 1

/-- `u32::to_le_bytes`. -/
def toLeBytes (value : Nat) : Bytes :=
  [value.toUInt8, (value / 256).toUInt8, (value / 65536).toUInt8, (value / 16777216).toUInt8]

/-- `u32::from_le_bytes`, of four bytes. -/
def fromLeBytes (bytes : Bytes) : Nat :=
  bytes.foldr (fun byte value => byte.toNat + 256 * value) 0

def putVarint (value : Nat) : Bytes :=
  Varints.put value

/-- How many bytes two paths begin with in common. -/
def sharedWith (previous path : Bytes) : Nat :=
  ((path.zip previous).takeWhile (fun pair => pair.1 = pair.2)).length

/-- A path and its fields, front-coded against the path before. -/
def putEntry (previous : Bytes) (entry : PathEntry) : Bytes :=
  let shared := sharedWith previous entry.path
  putVarint shared
  ++ putVarint (entry.path.length - shared)
  ++ entry.path.drop shared
  ++ putVarint entry.mode
  ++ putVarint entry.key

def putEntries (previous : Bytes) : List PathEntry → Bytes
  | [] => []
  | entry :: rest => putEntry previous entry ++ putEntries entry.path rest

/-- The table's bytes, without the digest. -/
def Manifest.body (manifest : Manifest) : Bytes :=
  let commit := manifest.commit.toQualified.utf8
  magic
  ++ toLeBytes manifestFormatVersion
  ++ putVarint commit.length
  ++ commit
  ++ putVarint manifest.paths.length
  ++ putEntries [] manifest.paths

/-- Encode with a format version and a checksum. -/
def Manifest.encode (digests : Digests) (manifest : Manifest) : Bytes :=
  manifest.body ++ digests.sha256 manifest.body

/-- The digest at the end of the encoded bytes, in hex. -/
def checksum (encoded : Bytes) : Text :=
  toHex (encoded.drop (encoded.length - 32))

-- Decoding

def corrupt (message : Text) : GfsError :=
  ⟨.internal, message⟩

/-- The next bytes and what is behind them. -/
def take (count : Nat) (bytes : Bytes) : Except GfsError (Bytes × Bytes) :=
  if count ≤ bytes.length then .ok (bytes.take count, bytes.drop count)
  else .error (corrupt "manifest ended in the middle of a field".toList)

/-- The next number, of 64 bits, and what is behind it. -/
def varint (bytes : Bytes) : Except GfsError (Nat × Bytes) :=
  match Varints.read 64 bytes with
  | .ok found => .ok found
  | .error .ended => .error (corrupt "manifest ended in the middle of a varint".toList)
  | .error .tooLong => .error (corrupt "varint is too long".toList)

/-- The next path, after the one before. -/
def readEntry (previous bytes : Bytes) : Except GfsError (PathEntry × Bytes) := do
  let (shared, rest) ← varint bytes
  let (suffixLen, rest) ← varint rest
  if shared > previous.length then
    .error (corrupt "front-coded prefix is longer than the previous path".toList)
  else do
    let (suffix, rest) ← take suffixLen rest
    let (mode, rest) ← varint rest
    let (key, rest) ← varint rest
    if key < 2 ^ 32 then
      return (⟨previous.take shared ++ suffix, mode % 2 ^ 32, key⟩, rest)
    else .error (corrupt "blob key out of range".toList)

/-- As many paths as were announced. -/
def readEntries : Nat → Bytes → Bytes → Except GfsError (List PathEntry)
  | 0, _, _ => .ok []
  | count + 1, previous, bytes => do
      let (entry, rest) ← readEntry previous bytes
      let others ← readEntries count entry.path rest
      return entry :: others

/-- The table behind the format version. -/
def readTable (bytes : Bytes) : Except GfsError Table := do
  let (commitLen, rest) ← varint bytes
  let (commit, rest) ← take commitLen rest
  match Text.fromUtf8 commit with
  | none => .error (corrupt "commit id is not text".toList)
  | some text =>
      match ObjectId.parseQualified text with
      | .error e => .error (corrupt ("commit id: ".toList ++ e.message))
      | .ok commit => do
          let (count, rest) ← varint rest
          let paths ← readEntries count [] rest
          return .fromSorted commit paths

/-- What a body holds whose digest is right. -/
def readBody (body : Bytes) : Except GfsError Table := do
  let (found, rest) ← take magic.length body
  if found ≠ magic then .error (corrupt "manifest magic is wrong".toList)
  else do
    let (version, rest) ← take 4 rest
    if fromLeBytes version ≠ manifestFormatVersion then
      .error ⟨.failedPrecondition,
        "manifest format version ".toList ++ Nat.toDigits 10 (fromLeBytes version)
        ++ " is not the ".toList ++ Nat.toDigits 10 manifestFormatVersion
        ++ " this build writes; rebuild the snapshot".toList⟩
    else readTable rest

/-- Decode a manifest, its checksum first. -/
def decode (digests : Digests) (bytes : Bytes) : Except GfsError Table :=
  if bytes.length < magic.length + 4 + 32 then
    .error (corrupt "manifest is too short to be one".toList)
  else
    let body := bytes.take (bytes.length - 32)
    if digests.sha256 body ≠ bytes.drop (bytes.length - 32) then
      .error (corrupt "manifest checksum does not match its contents".toList)
    else readBody body

-- The round trip

/-- What the types of an entry's fields hold: two numbers of 32 bits, and a path in memory. -/
structure PathEntry.Fits (entry : PathEntry) : Prop where
  mode : entry.mode < 2 ^ 32
  key : entry.key < 2 ^ 32
  path : entry.path.length < 2 ^ 64

theorem varint_putVarint {value : Nat} (fits : value < 2 ^ 64) (rest : Bytes)
    : varint (putVarint value ++ rest) = .ok (value, rest) := by
  rw [varint, putVarint, Varints.read_put fits]

theorem take_append (part rest : Bytes) : take part.length (part ++ rest) = .ok (part, rest) := by
  rw [take, if_pos (by simp), List.take_left, List.drop_left]

theorem take_append_of_length {count : Nat} {part : Bytes} (counted : part.length = count)
    (rest : Bytes)
    : take count (part ++ rest) = .ok (part, rest) := by
  rw [← counted, take_append]

/-- Two paths begin with the bytes they share. -/
theorem sharedWith_spec (previous path : Bytes)
    : sharedWith previous path ≤ previous.length
      ∧ sharedWith previous path ≤ path.length
      ∧ previous.take (sharedWith previous path) = path.take (sharedWith previous path) := by
  induction path generalizing previous with
  | nil => simp [sharedWith]
  | cons byte path ih =>
      cases previous with
      | nil => simp [sharedWith]
      | cons first previous =>
          obtain ⟨short, short', same⟩ := ih previous
          by_cases equal : byte = first
          · have step
                : sharedWith (first :: previous) (byte :: path) = sharedWith previous path + 1 := by
              simp [sharedWith, equal]
            rw [step, List.take_succ_cons, List.take_succ_cons, same, equal]
            exact ⟨Nat.succ_le_succ short, Nat.succ_le_succ short', rfl⟩
          · have step : sharedWith (first :: previous) (byte :: path) = 0 := by
              simp [sharedWith, equal]
            rw [step]
            simp

theorem readEntry_putEntry {entry : PathEntry} (fits : entry.Fits) (previous rest : Bytes)
    : readEntry previous (putEntry previous entry ++ rest) = .ok (entry, rest) := by
  obtain ⟨short, short', same⟩ := sharedWith_spec previous entry.path
  have long := fits.path
  have mode := fits.mode
  have key : entry.key < 2 ^ 32 := fits.key
  rw [putEntry, readEntry]
  simp only [List.append_assoc]
  rw [varint_putVarint (by omega)]
  simp only [bind, Except.bind]
  rw [varint_putVarint (by omega)]
  simp only [gt_iff_lt, Nat.not_lt.mpr short, if_false]
  rw [take_append_of_length List.length_drop]
  simp only
  rw [varint_putVarint (by omega)]
  simp only
  rw [varint_putVarint (Nat.lt_trans key (by decide))]
  simp only [key, if_true, same, List.take_append_drop, Nat.mod_eq_of_lt mode]
  rfl

theorem readEntries_putEntries {entries : List PathEntry} (fits : ∀ entry ∈ entries, entry.Fits)
    (previous : Bytes)
    : readEntries entries.length previous (putEntries previous entries) = .ok entries := by
  induction entries generalizing previous with
  | nil => rfl
  | cons entry entries ih =>
      obtain ⟨own, others⟩ := List.forall_mem_cons.mp fits
      rw [List.length_cons, readEntries, putEntries, readEntry_putEntry own]
      simp only [bind, Except.bind]
      rw [ih others entry.path]
      rfl

theorem readTable_append {manifest : Manifest} (sized : manifest.commit.Sized)
    (fits : ∀ entry ∈ manifest.paths, entry.Fits) (counted : manifest.paths.length < 2 ^ 64)
    : readTable
        (putVarint manifest.commit.toQualified.utf8.length
        ++ (manifest.commit.toQualified.utf8
        ++ (putVarint manifest.paths.length ++ putEntries [] manifest.paths)))
      = .ok manifest.whole := by
  rw [readTable, varint_putVarint (Nat.lt_trans (ObjectId.toQualified_short sized) (by decide))]
  simp only [bind, Except.bind]
  rw [take_append]
  simp only [Text.fromUtf8_eq_some.mpr rfl, ObjectId.parseQualified_toQualified sized]
  rw [varint_putVarint counted]
  simp only
  rw [readEntries_putEntries fits]
  rfl

/-- What a manifest is encoded to reads back as the manifest, with what is derived of it. -/
theorem decode_encode {digests : Digests} (sized : ∀ bytes, (digests.sha256 bytes).length = 32)
    {manifest : Manifest} (commitSized : manifest.commit.Sized)
    (fits : ∀ entry ∈ manifest.paths, entry.Fits) (counted : manifest.paths.length < 2 ^ 64)
    : decode digests (manifest.encode digests) = .ok manifest.whole := by
  have whole : (manifest.encode digests).length - 32 = manifest.body.length := by
    rw [Manifest.encode, List.length_append, sized, Nat.add_sub_cancel]
  have long : ¬(manifest.encode digests).length < magic.length + 4 + 32 := by
    rw [Manifest.encode, List.length_append, sized, Manifest.body]
    simp only [List.length_append, toLeBytes, List.length_cons, List.length_nil]
    omega
  rw [decode, if_neg long]
  simp only [whole]
  rw [Manifest.encode, List.take_left, List.drop_left, if_neg (not_not.mpr rfl)]
  rw [Manifest.body, readBody]
  simp only [List.append_assoc]
  rw [take_append]
  simp only [bind, Except.bind, ne_eq, not_true_eq_false, if_false]
  have four : (toLeBytes manifestFormatVersion).length = 4 := rfl
  rw [take_append_of_length four]
  have version : fromLeBytes (toLeBytes manifestFormatVersion) = manifestFormatVersion := by
    decide
  simp only [version, not_true_eq_false, if_false]
  exact readTable_append commitSized fits counted

end Gfs.Search.Manifests
