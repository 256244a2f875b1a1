import Gfs.Types.Path

/-! The vocabulary of `gfs-types` the overlay and the mount share: entry kinds and Git modes
(`entry.rs`), object ids (`oid.rs`), timestamps (`time.rs`) and content hashing
(`gfs-overlay/src/hash.rs`).
-/

namespace Gfs.Types

-- Entry kinds and modes

/-- Git's file modes, in octal 100644, 100755, 120000, 040000 and 160000. -/
def Mode.regular : Nat := 33188
def Mode.executable : Nat := 33261
def Mode.symlink : Nat := 40960
def Mode.directory : Nat := 16384
def Mode.gitlink : Nat := 57344

inductive EntryKind where
  | regular
  | executable
  | symlink
  | directory
  | gitlink
  | unsupported (mode : Nat)
  deriving DecidableEq, Repr

def EntryKind.fromMode (mode : Nat) : EntryKind :=
  if mode = Mode.regular then .regular
  else if mode = Mode.executable then .executable
  else if mode = Mode.symlink then .symlink
  else if mode = Mode.directory then .directory
  else if mode = Mode.gitlink then .gitlink
  else .unsupported mode

/-- The Git mode this kind was made from. -/
def EntryKind.asMode : EntryKind → Nat
  | .regular => Mode.regular
  | .executable => Mode.executable
  | .symlink => Mode.symlink
  | .directory => Mode.directory
  | .gitlink => Mode.gitlink
  | .unsupported mode => mode

/-- Whether the entry is listable as a directory. A gitlink counts. -/
def EntryKind.isDirLike : EntryKind → Bool
  | .directory | .gitlink => true
  | _ => false

/-- Whether the entry has blob content the blob API can serve. -/
def EntryKind.hasBlobContent : EntryKind → Bool
  | .regular | .executable | .symlink => true
  | _ => false

-- Object ids and hashing

inductive HashAlgorithm where
  | sha1
  | sha256
  | lfsSha256
  deriving DecidableEq, Repr

structure ObjectId where
  algorithm : HashAlgorithm
  raw : Bytes
  deriving DecidableEq, Repr

/-- The digests the hashing crates compute. Their code is not part of the repository. -/
structure Digests where
  sha1 : Bytes → Bytes
  sha256 : Bytes → Bytes

/-- `size.to_string()` as bytes. -/
def decimal (size : Nat) : Bytes :=
  (Nat.toDigits 10 size).map (fun digit => digit.toNat.toUInt8)

/-- `blob <size>` and a NUL: the frame Git hashes a blob under. -/
def blobFrame (size : Nat) : Bytes :=
  [98, 108, 111, 98, 32] ++ decimal size ++ [0]

/-- Hash a file as a Git blob under a size taken from elsewhere, or as an LFS object. Git's
own SHA-256 object format is refused.
-/
def Digests.blobOidOfFile (digests : Digests) (algorithm : HashAlgorithm) (bytes : Bytes)
    (size : Nat)
    : Option ObjectId :=
  match algorithm with
  | .sha1 => some ⟨.sha1, digests.sha1 (blobFrame size ++ bytes)⟩
  | .lfsSha256 => some ⟨.lfsSha256, digests.sha256 bytes⟩
  | .sha256 => none

/-- Hash bytes as a Git blob. -/
def Digests.blobOid (digests : Digests) (algorithm : HashAlgorithm) (bytes : Bytes)
    : Option ObjectId :=
  digests.blobOidOfFile algorithm bytes bytes.length

theorem zero_notMem_decimal (size : Nat) : 0 ∉ decimal size := by
  intro member
  obtain ⟨digit, listed, same⟩ := List.mem_map.mp member
  have isDigit := Nat.isDigit_of_mem_toDigits (by decide) (by decide) listed
  have bounds : 48 ≤ digit.toNat ∧ digit.toNat ≤ 57 := by
    simp only [Char.isDigit, ge_iff_le, Bool.and_eq_true, decide_eq_true_eq] at isDigit
    exact ⟨isDigit.1, isDigit.2⟩
  have value : (digit.toNat.toUInt8).toNat = digit.toNat % 256 := rfl
  rw [same] at value
  have zero : (0 : UInt8).toNat = 0 := rfl
  omega

/-- A framed blob determines its bytes: the frame ends at the first NUL. -/
theorem blobFrame_append_inj {left right : Nat} {bytes other : Bytes}
    (same : blobFrame left ++ bytes = blobFrame right ++ other)
    : bytes = other := by
  have splits : ∀ (digits digits' : Bytes), 0 ∉ digits → 0 ∉ digits'
      → digits ++ 0 :: bytes = digits' ++ 0 :: other → bytes = other := by
    intro digits
    induction digits with
    | nil =>
        intro digits' _ clean equal
        cases digits' with
        | nil => exact (List.cons.inj equal).2
        | cons head tail =>
            have head_ := (List.cons.inj equal).1
            exact absurd (by rw [← head_]; exact List.mem_cons_self) clean
    | cons head tail ih =>
        intro digits' clean clean' equal
        cases digits' with
        | nil =>
            have head_ := (List.cons.inj equal).1
            exact absurd (by rw [head_]; exact List.mem_cons_self) clean
        | cons head' tail' =>
            simp only [List.mem_cons, not_or] at clean clean'
            exact ih tail' clean.2 clean'.2 (List.cons.inj equal).2
  simp only [blobFrame, List.append_assoc, List.cons_append, List.nil_append,
    List.cons.injEq, true_and] at same
  exact splits _ _ (zero_notMem_decimal left) (zero_notMem_decimal right) same

-- Timestamps

structure Timestamp where
  secs : Int
  nanos : Nat
  deriving DecidableEq, Repr

namespace Timestamp

/-- The derived order: seconds first. -/
def lt (a b : Timestamp) : Bool :=
  a.secs < b.secs || (a.secs = b.secs && a.nanos < b.nanos)

def max (a b : Timestamp) : Timestamp :=
  if a.lt b then b else a

/-- Add one tick, a nanosecond. Seconds saturate at the largest `i64`. -/
def nextTick (time : Timestamp) : Timestamp :=
  if time.nanos + 1 ≥ 1000000000 then
    ⟨min (time.secs + ((time.nanos + 1) / 1000000000 : Nat)) (2 ^ 63 - 1),
      (time.nanos + 1) % 1000000000⟩
  else ⟨time.secs, time.nanos + 1⟩

end Timestamp

/-- The next overlay timestamp: after the host clock, the base and the prior entry. -/
def overlayTime (hostWallClock snapshotTime : Timestamp) (priorEntryTime : Option Timestamp)
    : Timestamp :=
  let time := hostWallClock.max snapshotTime.nextTick
  match priorEntryTime with
  | some prior => time.max prior.nextTick
  | none => time

/-- Clamp an explicitly requested overlay timestamp to the overlay floor. -/
def clampRequestedOverlayTime (requested snapshotTime : Timestamp) : Timestamp :=
  requested.max snapshotTime.nextTick

/-- `u64::saturating_add`. -/
def saturatingAdd (a b : Nat) : Nat :=
  min (a + b) (2 ^ 64 - 1)

end Gfs.Types
