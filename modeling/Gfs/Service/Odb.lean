import Gfs.Types.Error
import Gfs.Types.Lfs

/-! The gateway's half of the projected object database (`gfs-service/src/odb.rs` and `odb_file`
of `gfs-service/src/service/http.rs`): which paths it serves, and the bytes of a range of a file.
-/

namespace Gfs.Service.Odb

open Gfs.Types

/-- One file a workspace's Git may read, relative to `objects/`. -/
structure OdbFile where
  path : Text
  size : Nat
  deriving DecidableEq, Repr

/-- The files of the gateway's `objects/`, by path. -/
abbrev Objects := Text → Option Bytes

-- Paths

/-- A lowercase hexadecimal digit. -/
def isLowerHex (c : Char) : Bool :=
  (48 ≤ c.toNat && c.toNat ≤ 57) || (97 ≤ c.toNat && c.toNat ≤ 102)

def isHexName (text : Text) : Bool :=
  !text.isEmpty && text.all isLowerHex

/-- `str::split_once`. -/
def splitOnce (divider : Char) (text : Text) : Option (Text × Text) :=
  match text.dropWhile (· ≠ divider) with
  | [] => none
  | _ :: rest => some (text.takeWhile (· ≠ divider), rest)

variable {divider : Char}

theorem splitOnce_append {first : Text} (clean : divider ∉ first) (last : Text)
    : splitOnce divider (first ++ divider :: last) = some (first, last) := by
  have other : ∀ c ∈ first, decide (c ≠ divider) = true :=
    fun c member => decide_eq_true fun same => clean (same ▸ member)
  rw [splitOnce, List.dropWhile_append_of_pos other, List.takeWhile_append_of_pos other]
  simp

theorem splitOnce_clean {text : Text} (clean : divider ∉ text)
    : splitOnce divider text = none := by
  have other : ∀ c ∈ text, decide (c ≠ divider) = true :=
    fun c member => decide_eq_true fun same => clean (same ▸ member)
  rw [splitOnce, List.dropWhile_eq_nil_iff.mpr other]

theorem splitOnce_some {text first last : Text}
    (parted : splitOnce divider text = some (first, last))
    : text = first ++ divider :: last := by
  unfold splitOnce at parted
  have whole := List.takeWhile_append_dropWhile (p := fun c => decide (c ≠ divider)) (l := text)
  cases rest : text.dropWhile (fun c => decide (c ≠ divider)) with
  | nil =>
      rw [rest] at parted
      cases parted
  | cons c after =>
      have stop := List.head?_dropWhile_not (fun c => decide (c ≠ divider)) text
      rw [rest] at stop parted whole
      obtain rfl : c = divider := by simpa using stop
      cases parted
      exact whole.symm

/-- `str::rsplit_once`. -/
def rsplitOnce (divider : Char) (text : Text) : Option (Text × Text) :=
  (splitOnce divider text.reverse).map (fun parts => (parts.2.reverse, parts.1.reverse))

theorem rsplitOnce_append {last : Text} (clean : divider ∉ last) (first : Text)
    : rsplitOnce divider (first ++ divider :: last) = some (first, last) := by
  have reversed
      : (first ++ divider :: last).reverse = last.reverse ++ divider :: first.reverse := by
    simp
  have clean' : divider ∉ last.reverse := fun member => clean (List.mem_reverse.mp member)
  rw [rsplitOnce, reversed, splitOnce_append clean', Option.map_some, List.reverse_reverse,
    List.reverse_reverse]

theorem rsplitOnce_clean {text : Text} (clean : divider ∉ text)
    : rsplitOnce divider text = none := by
  have clean' : divider ∉ text.reverse := fun member => clean (List.mem_reverse.mp member)
  rw [rsplitOnce, splitOnce_clean clean', Option.map_none]

/-- `str::strip_suffix`. -/
def stripSuffix (trail text : Text) : Option Text :=
  (stripPrefix trail.reverse text.reverse).map List.reverse

/-- A pack or one of its lookup structures. -/
def isPackName (name : Text) : Bool :=
  match stripPrefix "pack-".toList name with
  | none => false
  | some rest =>
      match rsplitOnce '.' rest with
      | none => false
      | some (digest, suffix) =>
          isHexName digest
          && ["pack".toList, "idx".toList, "rev".toList, "bitmap".toList, "mtimes".toList].contains
            suffix

/-- The chain of a split commit-graph, or one of its layers. -/
def isGraphName (name : Text) : Bool :=
  name = "commit-graph-chain".toList
  || match stripPrefix "graph-".toList name with
    | none => false
    | some rest => ((stripSuffix ".graph".toList rest).map isHexName).getD false

/-- A loose object: two characters of its digest, then the others. -/
def isLooseName (path : Text) : Bool :=
  match splitOnce '/' path with
  | none => false
  | some (fan, rest) => fan.length = 2 && isHexName fan && 38 ≤ rest.length && isHexName rest

/-- The shapes of servable paths. -/
def isServable (path : Text) : Bool :=
  match stripPrefix "pack/".toList path with
  | some name => isPackName name
  | none =>
      path = "info/commit-graph".toList
      || match stripPrefix "info/commit-graphs/".toList path with
        | some name => isGraphName name
        | none => isLooseName path

/-- The complete grammar of servable paths. Anything else is refused. -/
def validateOdbPath (path : Text) : Except GfsError Unit :=
  if isServable path then .ok ()
  else
    .error ⟨.invalidArgument,
      "not a servable object-store path: ".toList ++ '"' :: path ++ ['"']⟩

-- Ranges

/-- The two positions that a mount asks for, against a file's length. An end past the last byte is
answered with what exists.
-/
def rangeWithin (start last total : Nat) : Except GfsError (Nat × Nat) :=
  if total = 0 ∨ start > last ∨ start ≥ total then
    .error ⟨.invalidArgument, "unsatisfiable range".toList⟩
  else .ok (start, min last (total - 1))

/-- The bytes from an offset to another, which is left out. -/
def slice (content : Bytes) (start finish : Nat) : Bytes :=
  (content.drop start).take (finish - start)

/-- What a mount's `read_range` is answered with: a range of one object-store file. -/
def readRange (objects : Objects) (path : Text) (start last : Nat) : Except GfsError Bytes := do
  validateOdbPath path
  match objects path with
  | none =>
      .error ⟨.failedPrecondition,
        "the object store was repacked; refresh the manifest".toList⟩
  | some content =>
      let (start, last) ← rangeWithin start last content.length
      pure (slice content start (last + 1))

/-- What a range request answers is a part of the file, and all of it that was asked for where
it has the length of the range.
-/
theorem readRange_eq_ok {objects : Objects} {path : Text} {start last : Nat} {body : Bytes}
    (answered : readRange objects path start last = .ok body)
    : ∃ content,
        objects path = some content
        ∧ body = slice content start (min last (content.length - 1) + 1) := by
  obtain ⟨-, -, answered⟩ := bind_eq_ok.mp answered
  cases found : objects path with
  | none =>
      rw [found] at answered
      cases answered
  | some content =>
      rw [found] at answered
      dsimp only at answered
      rw [rangeWithin] at answered
      split at answered
      · cases answered
      · cases answered
        exact ⟨content, rfl, rfl⟩

theorem slice_length (content : Bytes) (start finish : Nat)
    : (slice content start finish).length = min (finish - start) (content.length - start) := by
  rw [slice, List.length_take, List.length_drop]

theorem slice_getElem? {content : Bytes} {start finish place : Nat}
    (within : start + place < finish)
    : (slice content start finish)[place]? = content[start + place]? := by
  rw [slice, List.getElem?_take_of_lt (by omega), List.getElem?_drop]

end Gfs.Service.Odb
