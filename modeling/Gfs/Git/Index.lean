import Gfs.Git.Listing
import Gfs.Service.Bytes
import Gfs.Types.Signed

/-! The Git index file (`gfs-git/src/index.rs`): its entries and its cache tree as bytes, and the
cursor that reads them. The names that error messages quote are left out.
-/

namespace Gfs.Git.Index

open Gfs.Types
open Gfs.Service (beBytes beValue)

-- The cache tree

/-- One directory of the `TREE` extension: the tree object it hashes to, how many index entries
it covers, and its subdirectories.
-/
inductive CacheTree where
  | node (name : Bytes) (oid : ObjectId) (entries : Nat) (children : List CacheTree)

namespace CacheTree

def name : CacheTree → Bytes
  | .node name _ _ _ => name

def oid : CacheTree → ObjectId
  | .node _ oid _ _ => oid

def entries : CacheTree → Nat
  | .node _ _ entries _ => entries

def children : CacheTree → List CacheTree
  | .node _ _ _ children => children

end CacheTree

/-- Git's `subtree_name_cmp`: shorter names first, then bytes. -/
def subtreeNameLe (a b : Bytes) : Bool :=
  decide (a.length < b.length) || (decide (a.length = b.length) && decide (a ≤ b))

def unsupportedId : GfsError :=
  ⟨.unsupportedRepositoryFormat, "index v2 records SHA-1 object IDs (ADR 0001)".toList⟩

mutual

def writeCacheTree : CacheTree → Except GfsError Bytes
  | .node name oid entries children =>
      if oid.algorithm ≠ .sha1 then .error unsupportedId
      else do
        let below ← writeForest children
        return name ++ [0] ++ decimal entries ++ [32] ++ decimal children.length ++ [10]
          ++ oid.raw ++ below

def writeForest : List CacheTree → Except GfsError Bytes
  | [] => .ok []
  | child :: children => do
      let first ← writeCacheTree child
      let rest ← writeForest children
      return first ++ rest

end

mutual

/-- Put every level in Git's order, and refuse a level that names a directory twice. -/
def sortCacheTree : CacheTree → Except GfsError CacheTree
  | .node name oid entries children =>
      let level := (sortForest children).mergeSort (fun a b => subtreeNameLe a.1 b.1)
      if level.IsChain (fun a b => a.1 ≠ b.1) then do
        let sorted ← level.mapM Prod.snd
        return .node name oid entries sorted
      else .error ⟨.internal, "cache tree names a directory twice".toList⟩

/-- The trees of a level with their names, each in order once it is asked for. -/
def sortForest : List CacheTree → List (Bytes × Except GfsError CacheTree)
  | [] => []
  | child :: children => (child.name, sortCacheTree child) :: sortForest children

end

/-- How many entries a directory covers: of entries in the order of their paths, the run of those
under it.
-/
def covered (lead : Bytes) (entries : List IndexEntry) : Nat :=
  ((entries.dropWhile (fun entry => decide (entry.path < lead))).takeWhile
    (fun entry => lead.isPrefixOf entry.path)).length

mutual

/-- Check every recorded entry count against the entries themselves. -/
def verifyCacheTree (all : List IndexEntry) : Bytes → CacheTree → Except GfsError Unit
  | lead, .node _ _ entries children =>
      if covered lead all ≠ entries then
        .error ⟨.internal, "cache tree claims other entries than the index holds".toList⟩
      else verifyForest all lead children

def verifyForest (all : List IndexEntry) : Bytes → List CacheTree → Except GfsError Unit
  | _, [] => .ok ()
  | lead, child :: children => do
      verifyCacheTree all (lead ++ child.name ++ [slash]) child
      verifyForest all lead children

end

-- The writer

/-- The stat data of an entry before its mode. -/
def statFields (stamp : Timestamp) : Bytes :=
  let time := beBytes 4 (asU32 stamp.secs) ++ beBytes 4 stamp.nanos
  time ++ time ++ beBytes 4 0 ++ beBytes 4 0

/-- An entry up to its path, stage 0 and not assumed valid. Numbers too large for their fields
wrap.
-/
def fixedFields (stamp : Timestamp) (entry : IndexEntry) : Bytes :=
  statFields stamp ++ beBytes 4 entry.mode ++ (beBytes 4 0 ++ beBytes 4 0 ++ beBytes 4 entry.size)
    ++ entry.oid.raw ++ beBytes 2 (min entry.path.length 0xFFF)

/-- An entry, with one to eight NULs to a multiple of eight bytes. -/
def writeEntry (stamp : Timestamp) (entry : IndexEntry) : Bytes :=
  let fields := fixedFields stamp entry ++ entry.path
  fields ++ List.replicate ((fields.length / 8 + 1) * 8 - fields.length) 0

/-- The entries, which must stand in the order of their paths and have SHA-1 ids. -/
def writeEntries (stamp : Timestamp)
    : Option BytePath → List IndexEntry → Except GfsError Bytes
  | _, [] => .ok []
  | previous, entry :: entries =>
      if previous.any (fun path => decide (entry.path ≤ path)) then
        .error ⟨.internal, "index entries out of order".toList⟩
      else if entry.oid.algorithm ≠ .sha1 then .error unsupportedId
      else do
        let rest ← writeEntries stamp (some entry.path) entries
        return writeEntry stamp entry ++ rest

/-- The `TREE` extension, if there is a cache tree. -/
def writeExtension (entries : List IndexEntry) : Option CacheTree → Except GfsError Bytes
  | none => .ok []
  | some root => do
      let root ← sortCacheTree root
      verifyCacheTree entries [] root
      let body ← writeCacheTree root
      if 2 ^ 32 ≤ body.length then
        .error ⟨.resourceLimit, "cache tree is too large to record".toList⟩
      else return [84, 82, 69, 69] ++ beBytes 4 body.length ++ body

/-- `DIRC`, the version and the number of entries. -/
def header (count : Nat) : Bytes :=
  [68, 73, 82, 67] ++ beBytes 4 2 ++ beBytes 4 count

/-- Serialize entries into a version-2 index file, with an optional cache tree. -/
def writeIndexV2 (sha1 : Bytes → Bytes) (entries : List IndexEntry) (stamp : Timestamp)
    (cacheTree : Option CacheTree)
    : Except GfsError Bytes :=
  if 2 ^ 32 ≤ entries.length then
    .error ⟨.resourceLimit, "too many entries for an index".toList⟩
  else do
    let records ← writeEntries stamp none entries
    let extension_ ← writeExtension entries cacheTree
    let out := header entries.length ++ records ++ extension_
    return out ++ sha1 out

-- The cursor

/-- `slice::get` of a range. -/
def slice (bytes : Bytes) (start stop : Nat) : Option Bytes :=
  if start ≤ stop ∧ stop ≤ bytes.length then some ((bytes.take stop).drop start) else none

/-- `slice::get` of all from a place on. -/
def sliceFrom (bytes : Bytes) (start : Nat) : Option Bytes :=
  if start ≤ bytes.length then some (bytes.drop start) else none

/-- What an entry stages, apart from its path. -/
structure Staged where
  stage : Nat
  mode : Nat
  oid : Bytes
  intentToAdd : Bool
  deriving DecidableEq, Repr

/-- Walks an index file's entries in order, keeping the current path. -/
structure EntryCursor where
  bytes : Bytes
  version : Nat
  remaining : Nat
  pos : Nat
  path : Bytes
  deriving DecidableEq, Repr

def truncated : GfsError :=
  ⟨.failedPrecondition, "the index is truncated".toList⟩

def notAnIndex : GfsError :=
  ⟨.failedPrecondition, "the index is not a Git index".toList⟩

/-- The number of bytes version 4 drops from the path before, and how many bytes tell it. -/
def readStrip : Bytes → Nat → Option (Nat × Nat)
  | [], _ => none
  | byte :: rest, strip =>
      let strip := (strip * 128 + byte.toNat % 128) % 2 ^ 64
      if byte.toNat < 128 then some (strip, 1)
      else (readStrip rest ((strip + 1) % 2 ^ 64)).map (fun read => (read.1, read.2 + 1))

namespace EntryCursor

def new (bytes : Bytes) : Except GfsError EntryCursor :=
  if bytes.length < 12 ∨ bytes.take 4 ≠ [68, 73, 82, 67] then .error notAnIndex
  else
    let version := beValue ((bytes.take 8).drop 4)
    if ¬(2 ≤ version ∧ version ≤ 4) then
      .error
        ⟨.failedPrecondition,
          "index version ".toList ++ Nat.toDigits 10 version ++ " is not supported".toList⟩
    else .ok ⟨bytes, version, beValue ((bytes.take 12).drop 8), 12, []⟩

/-- A path's length: the flags', or up to a NUL where it is too long for them. -/
def pathLength (flags : Nat) (rest : Bytes) : Option Nat :=
  if flags % 4096 = 0xFFF then rest.findIdx? (· = 0) else some (flags % 4096)

/-- The extended flags of an entry whose flags say that it has them. -/
def extendedFlags (cursor : EntryCursor) (flags : Nat) : Option (Option Bytes) :=
  if flags.testBit 14 then (slice cursor.bytes (cursor.pos + 62) (cursor.pos + 64)).map some
  else some none

/-- The path of the entry at a place whose path begins at another, and where the next entry
begins.
-/
def readPath (cursor : EntryCursor) (flags pos : Nat) : Option (Bytes × Nat) :=
  if cursor.version = 4 then do
    let (strip, told) ← readStrip (cursor.bytes.drop pos) 0
    let rest ← sliceFrom cursor.bytes (pos + told)
    let len ← rest.findIdx? (· = 0)
    if strip ≤ cursor.path.length then
      some (cursor.path.take (cursor.path.length - strip) ++ rest.take len, pos + told + len + 1)
    else none
  else do
    let rest ← sliceFrom cursor.bytes pos
    let len ← pathLength flags rest
    let path ← slice rest 0 len
    some (path, cursor.pos + (pos - cursor.pos + len) / 8 * 8 + 8)

/-- One entry, unless the file ends within it. -/
def read (cursor : EntryCursor) : Option (Staged × EntryCursor) := do
  let fixed ← slice cursor.bytes cursor.pos (cursor.pos + 62)
  let mode := beValue ((fixed.take 28).drop 24)
  let oid := (fixed.take 60).drop 40
  let flags := beValue (fixed.drop 60)
  let extended ← cursor.extendedFlags flags
  let pos := cursor.pos + if extended.isSome then 64 else 62
  let intentToAdd := extended.any (fun flags => (beValue flags).testBit 13)
  let (path, next) ← cursor.readPath flags pos
  some
    (⟨flags / 4096 % 4, mode, oid, intentToAdd⟩,
      { cursor with remaining := cursor.remaining - 1, pos := next, path })

/-- The next entry, or none after the last. -/
def next (cursor : EntryCursor) : Except GfsError (Option Staged × EntryCursor) :=
  if cursor.remaining = 0 then .ok (none, cursor)
  else
    match cursor.read with
    | some (staged, cursor) => .ok (some staged, cursor)
    | none => .error truncated

theorem remaining_of_next {cursor after : EntryCursor} {staged : Staged}
    (read : cursor.next = .ok (some staged, after))
    : after.remaining < cursor.remaining := by
  rw [next] at read
  split at read
  · cases read
  · rename_i some_
    split at read
    · rename_i found
      cases read
      simp only [EntryCursor.read, Option.bind_eq_bind, Option.bind_eq_some_iff] at found
      obtain ⟨_, -, _, -, _, -, same⟩ := found
      cases same
      exact Nat.sub_lt (Nat.pos_of_ne_zero some_) Nat.one_pos
    · cases read

end EntryCursor

-- What is staged

/-- The least path at which the entries of two cursors differ, as `git diff --cached` compares
them.
-/
def differenceFrom (a b : EntryCursor) : Except GfsError (Option Bytes) :=
  match _left : a.next, b.next with
  | .error refusal, _ => .error refusal
  | .ok _, .error refusal => .error refusal
  | .ok (none, _), .ok (none, _) => .ok none
  | .ok (some _, a), .ok (none, _) => .ok (some a.path)
  | .ok (none, _), .ok (some _, b) => .ok (some b.path)
  | .ok (some left, a), .ok (some right, b) =>
      if left ≠ right ∨ a.path ≠ b.path then .ok (some (if a.path ≤ b.path then a.path else b.path))
      else differenceFrom a b
termination_by a.remaining
decreasing_by exact EntryCursor.remaining_of_next _left

def firstStagedDifference (a b : Bytes) : Except GfsError (Option Bytes) := do
  let a ← EntryCursor.new a
  let b ← EntryCursor.new b
  differenceFrom a b

/-- The cursor after the last entry, if no entry is a conflict's or intended to be added. -/
def skipEntries (cursor : EntryCursor) : Except GfsError (Option EntryCursor) :=
  match _read : cursor.next with
  | .error refusal => .error refusal
  | .ok (none, cursor) => .ok (some cursor)
  | .ok (some staged, cursor) =>
      if staged.stage ≠ 0 ∨ staged.intentToAdd then .ok none else skipEntries cursor
termination_by cursor.remaining
decreasing_by exact EntryCursor.remaining_of_next _read

/-- The root's tree id in the body of a cache tree, unless the root is invalid. -/
def rootOfTree (body : Bytes) : Option Bytes := do
  let rest ← if body.head? = some 0 then some body.tail else none
  let lineEnd ← rest.findIdx? (· = 10)
  let line ← Text.fromUtf8 (rest.take lineEnd)
  let count ← parseSigned 64 (line.takeWhile (· ≠ ' '))
  if 0 ≤ count then slice rest (lineEnd + 1) (lineEnd + 21) else none

/-- The root's tree id in the first cache tree among the extensions from a place on. -/
def treeFrom (index : Bytes) (pos : Nat) : Except GfsError (Option Bytes) :=
  if pos + 8 + 20 ≤ index.length then
    let len := beValue ((index.take (pos + 8)).drop (pos + 4))
    match slice index (pos + 8) (pos + 8 + len) with
    | none => .error truncated
    | some body =>
        if (index.take (pos + 4)).drop pos = [84, 82, 69, 69] then .ok (rootOfTree body)
        else treeFrom index (pos + 8 + len)
  else .ok none
termination_by index.length - pos

/-- The tree the index stages, when Git has recorded it. -/
def stagedTree (index : Bytes) : Except GfsError (Option Bytes) := do
  let cursor ← EntryCursor.new index
  match ← skipEntries cursor with
  | none => return none
  | some cursor => treeFrom index cursor.pos

-- Parts of a file

theorem part_append {front middle back : Bytes} {start stop : Nat} (begins : front.length = start)
    (ends : start + middle.length = stop)
    : ((front ++ (middle ++ back)).take stop).drop start = middle := by
  rw [← List.append_assoc, ← ends, ← begins, ← List.length_append, List.take_left, List.drop_left]

theorem slice_append {front middle back : Bytes} {start stop : Nat} (begins : front.length = start)
    (ends : start + middle.length = stop)
    : slice (front ++ (middle ++ back)) start stop = some middle := by
  rw [slice, part_append begins ends, if_pos]
  simp only [List.length_append]
  omega

theorem findIdx?_first {front back : Bytes} {byte : UInt8} (absent : byte ∉ front)
    : (front ++ byte :: back).findIdx? (· = byte) = some front.length := by
  have none_ : front.findIdx? (· = byte) = none := by
    rw [List.findIdx?_eq_none_iff]
    intro other member
    rw [decide_eq_false_iff_not]
    rintro rfl
    exact absent member
  rw [List.findIdx?_append, none_]
  simp [List.findIdx?_cons]

-- What is written

/-- Entries in the order of their paths, with SHA-1 ids, are written one behind the other, and no
others are written.
-/
theorem writeEntries_eq_ok {stamp : Timestamp} {entries : List IndexEntry} {written : Bytes}
    (previous : Option BytePath)
    : writeEntries stamp previous entries = .ok written
      ↔ (∀ path ∈ previous, ∀ entry ∈ entries, path < entry.path)
        ∧ entries.Pairwise (fun a b => a.path < b.path)
        ∧ (∀ entry ∈ entries, entry.oid.algorithm = .sha1)
        ∧ written = entries.flatMap (writeEntry stamp) := by
  induction entries generalizing previous written with
  | nil => simp [writeEntries, eq_comm]
  | cons entry entries ih =>
      have guard
          : previous.any (fun path => decide (entry.path ≤ path)) = true
            ↔ ¬∀ path ∈ previous, path < entry.path := by
        cases previous <;> simp
      rw [writeEntries]
      split
      · rename_i unordered
        refine iff_of_false (by simp) fun ok => guard.mp unordered fun path member => ?_
        exact ok.1 path member entry List.mem_cons_self
      rename_i ordered
      have before := not_not.mp (mt guard.mpr ordered)
      split
      · rename_i foreign
        exact iff_of_false (by simp) fun ok => foreign (ok.2.2.1 entry List.mem_cons_self)
      rename_i known
      cases rest : writeEntries stamp (some entry.path) entries with
      | error refusal =>
          refine iff_of_false (by simp [bind, Except.bind]) fun ok => ?_
          have written
              : writeEntries stamp (some entry.path) entries
                = .ok (entries.flatMap (writeEntry stamp)) :=
            (ih _).mpr
              ⟨by simpa using (List.pairwise_cons.mp ok.2.1).1, (List.pairwise_cons.mp ok.2.1).2,
                (List.forall_mem_cons.mp ok.2.2.1).2, rfl⟩
          rw [rest] at written
          cases written
      | ok bytes =>
          obtain ⟨above, sorted, shas, rfl⟩ := (ih (some entry.path)).mp rest
          have above : ∀ other ∈ entries, entry.path < other.path := by simpa using above
          simp only [bind, Except.bind, pure, Except.pure, Except.ok.injEq, List.pairwise_cons,
            List.forall_mem_cons, List.flatMap_cons]
          constructor
          · rintro rfl
            exact ⟨fun path member => ⟨before path member,
                fun other within => List.lt_trans (before path member) (above other within)⟩,
              ⟨above, sorted⟩, ⟨not_not.mp known, shas⟩, rfl⟩
          · exact fun ok => ok.2.2.2.symm

end Gfs.Git.Index
