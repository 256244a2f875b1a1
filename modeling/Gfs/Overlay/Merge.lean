import Gfs.Overlay.State

/-! Resolution and directory merging, as pure functions over the rows
(`gfs-overlay/src/merge.rs`).
-/

namespace Gfs.Overlay

open Gfs.Types

abbrev Rows := Std.ExtTreeMap BytePath OverlayEntry compare

/-- What the overlay says about a path. -/
inductive Resolution where
  /-- The overlay supplies this path. -/
  | overlay (entry : OverlayEntry)
  /-- The overlay says nothing; the base's own entry, if any, applies. -/
  | base
  /-- Deleted or masked. The base must not be consulted. -/
  | absent
  deriving DecidableEq, Repr

/-- The ancestor loop of `resolve`: `none` when an ancestor is a whiteout or not a
directory, otherwise whether an opaque directory masks the base.
-/
def walkAncestors (rows : Rows) : Bool → List BytePath → Option Bool
  | masked, [] => some masked
  | masked, ancestor :: rest =>
      match rows[ancestor]? with
      | some entry =>
          if !entry.present then none
          else if !entry.kind.isDir then none
          else walkAncestors rows (masked || entry.opaqueDir) rest
      | none => walkAncestors rows masked rest

def resolve (rows : Rows) (path : BytePath) : Resolution :=
  match walkAncestors rows false (ancestorsOf path) with
  | none => .absent
  | some masked =>
      match rows[path]? with
      | some entry => if entry.present then .overlay entry else .absent
      | none => if masked then .absent else .base

/-- Whether the base's children of a directory are hidden. -/
def masksBase (rows : Rows) (dir : BytePath) : Bool :=
  let hides (ancestor : BytePath) : Bool :=
    match rows[ancestor]? with
    | some entry => !entry.present || !entry.kind.isDir || entry.opaqueDir
    | none => false
  (ancestorsOf dir).any hides || hides dir

/-- What `readdir` should do with one name the base listing produced. -/
inductive BaseChild where
  | keep
  | replace (entry : OverlayEntry)
  | hide
  deriving DecidableEq, Repr

/-- Decide the fate of a base child. `dir` is the directory being listed. -/
def baseChild (rows : Rows) (dir : BytePath) (name : Bytes) : BaseChild :=
  if masksBase rows dir then .hide
  else
    match rows[dir.join name]? with
    | some entry => if entry.present then .replace entry else .hide
    | none => .keep

-- Resolution in terms of what the ancestors are

/-- A whiteout, or a row that is not a directory, stands above the path. -/
def Blocked (rows : Rows) (path : BytePath) : Prop :=
  ∃ dir ∈ ancestorsOf path, ∃ entry, rows[dir]? = some entry
    ∧ (entry.present = false ∨ entry.kind.isDir = false)

/-- An opaque directory stands above the path. -/
def Masked (rows : Rows) (path : BytePath) : Prop :=
  ∃ dir ∈ ancestorsOf path, ∃ entry, rows[dir]? = some entry ∧ entry.opaqueDir = true

private theorem walkAncestors_eq_none {rows : Rows} {dirs : List BytePath} {masked : Bool}
    : walkAncestors rows masked dirs = none
      ↔ ∃ dir ∈ dirs, ∃ entry, rows[dir]? = some entry
          ∧ (entry.present = false ∨ entry.kind.isDir = false) := by
  induction dirs generalizing masked with
  | nil => simp [walkAncestors]
  | cons dir dirs ih =>
      unfold walkAncestors
      cases found : rows[dir]? with
      | none => simp [ih, found]
      | some entry =>
          cases present : entry.present <;> cases kind : entry.kind.isDir <;>
            simp [ih, found, present, kind]

private theorem walkAncestors_eq_some {rows : Rows} {dirs : List BytePath}
    {masked result : Bool} (walked : walkAncestors rows masked dirs = some result)
    : result = true
      ↔ masked = true
        ∨ ∃ dir ∈ dirs, ∃ entry, rows[dir]? = some entry ∧ entry.opaqueDir = true := by
  induction dirs generalizing masked with
  | nil =>
      simp only [walkAncestors, Option.some.injEq] at walked
      simp [walked]
  | cons dir dirs ih =>
      unfold walkAncestors at walked
      cases found : rows[dir]? with
      | none =>
          simp only [found] at walked
          simp [ih walked, found]
      | some entry =>
          simp only [found] at walked
          split at walked
          · simp at walked
          · split at walked
            · simp at walked
            · rw [ih walked]
              simp [found, or_assoc]

theorem resolve_of_blocked {rows : Rows} {path : BytePath} (blocked : Blocked rows path)
    : resolve rows path = .absent := by
  have walked : walkAncestors rows false (ancestorsOf path) = none :=
    walkAncestors_eq_none.mpr blocked
  simp [resolve, walked]

/-- With every ancestor a directory or unknown, the path's own row decides, then the mask. -/
theorem resolve_of_not_blocked {rows : Rows} {path : BytePath}
    (clear : ¬ Blocked rows path)
    : (∀ entry, rows[path]? = some entry
        → resolve rows path = if entry.present then .overlay entry else .absent)
      ∧ (rows[path]? = none → Masked rows path → resolve rows path = .absent)
      ∧ (rows[path]? = none → ¬ Masked rows path → resolve rows path = .base) := by
  cases walked : walkAncestors rows false (ancestorsOf path) with
  | none => exact absurd (walkAncestors_eq_none.mp walked) clear
  | some masked =>
      have meaning := walkAncestors_eq_some walked
      simp only [Bool.false_eq_true, false_or] at meaning
      refine ⟨fun entry found => by simp [resolve, walked, found], ?_, ?_⟩
      · intro missing hidden
        simp [resolve, walked, missing, meaning.mpr hidden]
      · intro missing shown
        have open_ : masked = false := by
          cases masked with
          | false => rfl
          | true => exact absurd (meaning.mp rfl) shown
        simp [resolve, walked, missing, open_]

end Gfs.Overlay
