import Gfs.Lib.Nesting

/-! Repository paths as raw bytes (`gfs-types/src/path.rs`), and the parent, ancestor and
containment functions the overlay walks them with (`gfs-overlay/src/state.rs`).
-/

namespace Gfs.Types

open Gfs.Lib.Nesting

abbrev Bytes := List UInt8

/-- A path relative to the snapshot root. The empty path is the root. -/
abbrev BytePath := Bytes

def slash : UInt8 := 47

def maxPathBytes : Nat := 4096

def maxPathComponents : Nat := 256

/-- Why `BytePath.validate` rejects a path. The service reports all of them as
`InvalidArgument`.
-/
inductive PathRefusal where
  | exceedsBytes
  | containsNul
  | absolute
  | emptyComponent
  | relativeComponent
  | exceedsComponents
  deriving DecidableEq, Repr

namespace BytePath

def root : BytePath := []

def components (path : BytePath) : List Bytes :=
  (path.splitOn slash).filter (fun component => !component.isEmpty)

/-- The final path component, or `none` for the root. -/
def fileName (path : BytePath) : Option Bytes :=
  path.components.getLast?

/-- Append a child component. -/
def join (path : BytePath) (component : Bytes) : BytePath :=
  (if path ≠ [] ∧ path.getLast? ≠ some slash then path ++ [slash] else path) ++ component

/-- The component loop of `validate`: `whole` is the path, `count` the components so far. -/
def validateComponents (whole : BytePath) : Nat → List Bytes → Except PathRefusal Unit
  | _, [] => .ok ()
  | count, component :: rest =>
      if component = [] then
        if whole = [] then validateComponents whole count rest
        else .error .emptyComponent
      else if component = [46] ∨ component = [46, 46] then .error .relativeComponent
      else if count + 1 > maxPathComponents then .error .exceedsComponents
      else validateComponents whole (count + 1) rest

/-- Validate a caller-supplied path before it reaches tree traversal. -/
def validate (path : BytePath) : Except PathRefusal Unit :=
  if path.length > maxPathBytes then .error .exceedsBytes
  else if path.contains 0 then .error .containsNul
  else if path.head? = some slash then .error .absolute
  else validateComponents path 0 (path.splitOn slash)

/-- Whether the path is rejected for being too long, as opposed to malformed. -/
def exceedsLengthLimits (path : BytePath) : Bool :=
  path.length > maxPathBytes
  || ((path.splitOn slash).filter (fun component => !component.isEmpty)).length
      > maxPathComponents

end BytePath

/-- The parent of a byte path: what stands before the last slash. The root's parent is the
root.
-/
def parentOf (path : BytePath) : BytePath :=
  match path.reverse.findIdx? (· == slash) with
  | some index => path.take (path.length - 1 - index)
  | none => BytePath.root

/-- Every proper ancestor of a path, root first, excluding the path itself. -/
def ancestorsOf (path : BytePath) : List BytePath :=
  if path = [] then []
  else
    BytePath.root
      :: ((List.range path.length).filter (fun index => path[index]? = some slash)).map
          (fun index => path.take index)

/-- Whether `path` is `dir` itself or lives underneath it. -/
def isWithin (path dir : BytePath) : Bool :=
  dir = []
  || path == dir
  || (path.length > dir.length && path[dir.length]? == some slash && dir.isPrefixOf path)

-- Ancestors

variable {dir path : BytePath} {name : Bytes}

theorem mem_ancestorsOf
    : dir ∈ ancestorsOf path ↔ path ≠ [] ∧ (dir = [] ∨ Below slash dir path) := by
  unfold ancestorsOf
  split
  · simp_all
  · rename_i nonempty
    simp only [BytePath.root, List.mem_cons, List.mem_map, List.mem_filter, List.mem_range,
      decide_eq_true_eq, ne_eq, nonempty, not_false_eq_true, true_and]
    refine or_congr Iff.rfl ⟨?_, ?_⟩
    · rintro ⟨index, ⟨bound, found⟩, rfl⟩
      refine ⟨path.drop (index + 1), ?_⟩
      have head : path[index] = slash := by simpa [List.getElem?_eq_getElem bound] using found
      calc
        path = path.take index ++ path.drop index := (List.take_append_drop index path).symm
        _ = path.take index ++ slash :: path.drop (index + 1) := by
            rw [List.drop_eq_getElem_cons bound, head]
    · rintro ⟨rest, rfl⟩
      exact ⟨dir.length, ⟨by simp, by simp⟩, by simp⟩

@[simp]
theorem ancestorsOf_root : ancestorsOf [] = [] := rfl

theorem length_lt_of_mem_ancestorsOf (above : dir ∈ ancestorsOf path)
    : dir.length < path.length := by
  obtain ⟨nonempty, rfl | below⟩ := mem_ancestorsOf.mp above
  · exact List.length_pos_iff.mpr nonempty
  · exact below.length_lt

theorem not_mem_ancestorsOf_self (path : BytePath) : path ∉ ancestorsOf path :=
  fun above => absurd (length_lt_of_mem_ancestorsOf above) (Nat.lt_irrefl _)

theorem ancestorsOf_trans {a b c : BytePath} (left : a ∈ ancestorsOf b)
    (right : b ∈ ancestorsOf c)
    : a ∈ ancestorsOf c := by
  rw [mem_ancestorsOf] at left right ⊢
  refine ⟨right.1, ?_⟩
  rcases left.2 with rfl | above
  · exact Or.inl rfl
  · rcases right.2 with rfl | below
    · exact absurd rfl left.1
    · exact Or.inr (above.trans below)

theorem ancestorsOf_linear {a b c : BytePath} (left : a ∈ ancestorsOf c)
    (right : b ∈ ancestorsOf c)
    : a = b ∨ a ∈ ancestorsOf b ∨ b ∈ ancestorsOf a := by
  by_cases aroot : a = []
  · by_cases broot : b = []
    · exact Or.inl (aroot.trans broot.symm)
    · exact Or.inr (Or.inl (mem_ancestorsOf.mpr ⟨broot, Or.inl aroot⟩))
  · by_cases broot : b = []
    · exact Or.inr (Or.inr (mem_ancestorsOf.mpr ⟨aroot, Or.inl broot⟩))
    · have above := (mem_ancestorsOf.mp left).2.resolve_left aroot
      have beside := (mem_ancestorsOf.mp right).2.resolve_left broot
      rcases above.linear beside with same | below | below
      · exact Or.inl same
      · exact Or.inr (Or.inl (mem_ancestorsOf.mpr ⟨broot, Or.inr below⟩))
      · exact Or.inr (Or.inr (mem_ancestorsOf.mpr ⟨aroot, Or.inr below⟩))

theorem mem_ancestorsOf_append (dir rest : BytePath)
    : dir ∈ ancestorsOf (dir ++ slash :: rest) :=
  mem_ancestorsOf.mpr ⟨by simp, Or.inr (below_append _ _)⟩

theorem mem_ancestorsOf_iff_append (nonroot : dir ≠ [])
    : dir ∈ ancestorsOf path ↔ ∃ rest, path = dir ++ slash :: rest := by
  constructor
  · intro above
    exact (mem_ancestorsOf.mp above).2.resolve_left nonroot
  · rintro ⟨rest, rfl⟩
    exact mem_ancestorsOf_append _ _

theorem mem_ancestorsOf_append_iff {a rest : BytePath} (nonroot : dir ≠ [])
    : a ∈ ancestorsOf (dir ++ slash :: rest)
      ↔ a ∈ ancestorsOf dir
        ∨ a = dir
        ∨ ∃ mid more, rest = mid ++ slash :: more ∧ a = dir ++ slash :: mid := by
  simp only [mem_ancestorsOf, below_append_iff, ne_eq, List.append_eq_nil_iff, nonroot,
    reduceCtorEq, and_false, not_false_eq_true, true_and]
  tauto

-- Containment and parents

theorem isWithin_iff
    : isWithin path dir = true ↔ dir = [] ∨ path = dir ∨ Below slash dir path := by
  simp only [isWithin, Bool.or_eq_true, decide_eq_true_eq, beq_iff_eq, Bool.and_eq_true,
    List.isPrefixOf_iff_prefix, or_assoc]
  refine or_congr Iff.rfl (or_congr Iff.rfl ⟨?_, ?_⟩)
  · rintro ⟨⟨longer, found⟩, rest, rfl⟩
    cases rest with
    | nil => simp at longer
    | cons head rest =>
        have same : head = slash := by simpa using found
        exact ⟨rest, by rw [same]⟩
  · rintro ⟨rest, rfl⟩
    simp

theorem isWithin_iff_ancestor (nonroot : dir ≠ [])
    : isWithin path dir = true ↔ path = dir ∨ dir ∈ ancestorsOf path := by
  rw [isWithin_iff, mem_ancestorsOf]
  constructor
  · rintro (isroot | same | below)
    · exact absurd isroot nonroot
    · exact Or.inl same
    · obtain ⟨rest, rfl⟩ := below
      exact Or.inr ⟨by simp, Or.inr (below_append _ _)⟩
  · rintro (same | ⟨-, isroot | below⟩)
    · exact Or.inr (Or.inl same)
    · exact absurd isroot nonroot
    · exact Or.inr (Or.inr below)

/-- A path with a slash is its parent, that slash and a name without one; any other path
has the root as parent. Witness: the position of the last slash.
-/
theorem parentOf_split (path : BytePath)
    : (∃ name, slash ∉ name ∧ path = parentOf path ++ slash :: name)
      ∨ (slash ∉ path ∧ parentOf path = []) := by
  unfold parentOf
  split
  · rename_i index found
    left
    rw [List.findIdx?_eq_some_iff_getElem] at found
    obtain ⟨bound, here, before⟩ := found
    simp only [List.length_reverse, List.getElem_reverse, beq_iff_eq] at bound here before
    have position : path.length - 1 - index < path.length := by omega
    refine ⟨path.drop (path.length - 1 - index + 1), ?_, ?_⟩
    · intro member
      obtain ⟨offset, inside, value⟩ := List.mem_iff_getElem.mp member
      simp only [List.length_drop] at inside
      rw [List.getElem_drop] at value
      have later := before (path.length - 1 - (path.length - 1 - index + 1 + offset)) (by omega)
      have same : path.length - 1 - (path.length - 1 - (path.length - 1 - index + 1 + offset))
          = path.length - 1 - index + 1 + offset := by omega
      simp only [same, value, not_true_eq_false] at later
    · rw [← here, ← List.drop_eq_getElem_cons position, List.take_append_drop]
  · rename_i missing
    right
    refine ⟨fun member => ?_, rfl⟩
    have none := List.findIdx?_eq_none_iff.mp missing slash (by simpa using member)
    simp at none

theorem parentOf_mem_ancestorsOf (nonroot : path ≠ [])
    : parentOf path ∈ ancestorsOf path := by
  rcases parentOf_split path with ⟨name, -, split⟩ | ⟨-, top⟩
  · refine mem_ancestorsOf.mpr ⟨nonroot, Or.inr ⟨name, split⟩⟩
  · rw [top]
    exact mem_ancestorsOf.mpr ⟨nonroot, Or.inl rfl⟩

theorem mem_ancestorsOf_iff_parent (nonroot : path ≠ [])
    : dir ∈ ancestorsOf path ↔ dir = parentOf path ∨ dir ∈ ancestorsOf (parentOf path) := by
  rcases parentOf_split path with ⟨name, component, split⟩ | ⟨component, top⟩
  · constructor
    · intro above
      rcases (mem_ancestorsOf.mp above).2 with rfl | below
      · by_cases top : parentOf path = []
        · exact Or.inl top.symm
        · exact Or.inr (mem_ancestorsOf.mpr ⟨top, Or.inl rfl⟩)
      · rw [split, below_component_iff component] at below
        rcases below with same | below
        · exact Or.inl same
        · by_cases top : parentOf path = []
          · rw [top] at below
            exact absurd below (not_below_component (by simp))
          · exact Or.inr (mem_ancestorsOf.mpr ⟨top, Or.inr below⟩)
    · rintro (rfl | above)
      · exact parentOf_mem_ancestorsOf nonroot
      · exact ancestorsOf_trans above (parentOf_mem_ancestorsOf nonroot)
  · rw [top]
    simp only [ancestorsOf_root, List.not_mem_nil, or_false]
    constructor
    · intro above
      rcases (mem_ancestorsOf.mp above).2 with same | below
      · exact same
      · exact absurd below (not_below_component component)
    · rintro rfl
      exact mem_ancestorsOf.mpr ⟨nonroot, Or.inl rfl⟩

-- Well-formed paths

/-- A nonempty path all of whose components are nonempty: one spelling per name. -/
def WellFormed (path : BytePath) : Prop :=
  path ≠ [] ∧ [] ∉ path.splitOn slash

instance (path : BytePath) : Decidable (WellFormed path) :=
  inferInstanceAs (Decidable (path ≠ [] ∧ [] ∉ path.splitOn slash))

theorem splitOn_append_slash (dir rest : BytePath)
    : (dir ++ slash :: rest).splitOn slash = dir.splitOn slash ++ rest.splitOn slash := by
  simp only [List.splitOn]
  exact List.splitOnP_append_cons _ _ (by simp)

theorem splitOn_component {name : BytePath} (component : slash ∉ name)
    : name.splitOn slash = [name] := by
  simp only [List.splitOn]
  exact List.splitOnP_eq_singleton (by
    intro byte member
    simpa using fun same : byte = slash => component (same ▸ member))

theorem wellFormed_append {rest : BytePath}
    : WellFormed (dir ++ slash :: rest) ↔ WellFormed dir ∧ WellFormed rest := by
  simp only [WellFormed, splitOn_append_slash, List.mem_append, ne_eq, List.append_eq_nil_iff,
    reduceCtorEq, and_false, not_false_eq_true, true_and, not_or]
  have nonempty {path : BytePath} (split : [] ∉ path.splitOn slash) : path ≠ [] := by
    rintro rfl
    exact split (by decide)
  exact ⟨fun ⟨left, right⟩ => ⟨⟨nonempty left, left⟩, nonempty right, right⟩,
    fun ⟨left, right⟩ => ⟨left.2, right.2⟩⟩

theorem WellFormed.ancestor (formed : WellFormed path) (above : dir ∈ ancestorsOf path)
    (nonroot : dir ≠ [])
    : WellFormed dir := by
  obtain ⟨rest, rfl⟩ := (mem_ancestorsOf_iff_append nonroot).mp above
  exact (wellFormed_append.mp formed).1

/-- A nonempty name without a slash, as one component of a path. -/
def IsComponent (name : Bytes) : Prop :=
  name ≠ [] ∧ slash ∉ name

theorem IsComponent.wellFormed (component : IsComponent name)
    : WellFormed name := by
  refine ⟨component.1, ?_⟩
  rw [splitOn_component component.2, List.mem_singleton]
  exact component.1.symm

theorem WellFormed.getLast?_ne (formed : WellFormed path)
    : path.getLast? ≠ some slash := by
  intro last
  obtain ⟨front, rfl⟩ := List.getLast?_eq_some_iff.mp last
  exact (wellFormed_append.mp formed).2.1 rfl

/-- A directory a child can be joined to: the root or a well-formed path. -/
def IsDirPath (dir : BytePath) : Prop :=
  dir = [] ∨ WellFormed dir

private theorem validateComponents_ok {whole : BytePath} (nonroot : whole ≠ [])
    {components : List Bytes} {count : Nat}
    (valid : BytePath.validateComponents whole count components = .ok ())
    : [] ∉ components := by
  induction components generalizing count with
  | nil => simp
  | cons component rest ih =>
      unfold BytePath.validateComponents at valid
      rw [if_neg nonroot] at valid
      split at valid
      · cases valid
      · rename_i nonempty
        split at valid
        · cases valid
        · split at valid
          · cases valid
          · simp only [List.mem_cons, not_or]
            exact ⟨fun same => nonempty same.symm, ih valid⟩

theorem isDirPath_of_validate (accepted : path.validate = .ok ())
    : IsDirPath path := by
  by_cases root : path = []
  · exact .inl root
  · rw [BytePath.validate] at accepted
    split at accepted
    · cases accepted
    · split at accepted
      · cases accepted
      · split at accepted
        · cases accepted
        · exact .inr ⟨root, validateComponents_ok root accepted⟩

theorem join_root (name : Bytes) : BytePath.join [] name = name := rfl

theorem WellFormed.join (formed : WellFormed dir) (name : Bytes)
    : BytePath.join dir name = dir ++ slash :: name := by
  simp [BytePath.join, formed.1, formed.getLast?_ne]

theorem IsDirPath.wellFormed_join (isDir : IsDirPath dir) (component : IsComponent name)
    : WellFormed (dir.join name) := by
  rcases isDir with rfl | formed
  · exact component.wellFormed
  · rw [formed.join]
    exact wellFormed_append.mpr ⟨formed, component.wellFormed⟩

private theorem fileName_component (component : IsComponent name)
    : BytePath.fileName name = some name := by
  simp [BytePath.fileName, BytePath.components, splitOn_component component.2, component.1]

private theorem fileName_append (component : IsComponent name)
    : BytePath.fileName (dir ++ slash :: name) = some name := by
  simp [BytePath.fileName, BytePath.components, splitOn_append_slash,
    splitOn_component component.2, component.1]

theorem WellFormed.split (formed : WellFormed path)
    : IsDirPath (parentOf path)
      ∧ IsComponent (path.fileName.getD [])
      ∧ (parentOf path).join (path.fileName.getD []) = path := by
  rcases parentOf_split path with ⟨name, component, split⟩ | ⟨component, top⟩
  · have whole : WellFormed (parentOf path ++ slash :: name) := split ▸ formed
    obtain ⟨above, below⟩ := wellFormed_append.mp whole
    have named : IsComponent name := ⟨below.1, component⟩
    have last : path.fileName.getD [] = name := by
      rw [split, fileName_append named, Option.getD_some]
    rw [last, above.join]
    exact ⟨Or.inr above, named, split.symm⟩
  · have named : IsComponent path := ⟨formed.1, component⟩
    rw [top, fileName_component named, Option.getD_some, join_root]
    exact ⟨Or.inl rfl, named, rfl⟩

/-- Joining a component and splitting again gives the directory and the component back. -/
theorem IsDirPath.split_join (isDir : IsDirPath dir) (component : IsComponent name)
    : parentOf (dir.join name) = dir ∧ (dir.join name).fileName.getD [] = name := by
  rcases isDir with rfl | formed
  · rw [join_root, fileName_component component]
    rcases parentOf_split name with ⟨rest, -, split⟩ | ⟨-, top⟩
    · exact absurd (split ▸ by simp : slash ∈ name) component.2
    · exact ⟨top, rfl⟩
  · rw [formed.join, fileName_append component]
    refine ⟨?_, rfl⟩
    rcases parentOf_split (dir ++ slash :: name) with ⟨rest, bare, split⟩ | ⟨bare, -⟩
    · rcases List.append_eq_append_iff.mp split with ⟨mid, front, tail⟩ | ⟨mid, front, tail⟩
      · cases mid with
        | nil => simpa using front
        | cons head mid =>
            obtain ⟨rfl, rest⟩ := List.cons.inj tail
            exact absurd (by simp [rest]) component.2
      · cases mid with
        | nil => simpa using front.symm
        | cons head mid =>
            obtain ⟨rfl, rest⟩ := List.cons.inj tail
            exact absurd (by simp [rest]) bare
    · exact absurd (by simp) bare

theorem IsDirPath.mem_ancestorsOf_join {dir a : BytePath} (isDir : IsDirPath dir)
    {name : Bytes} (component : IsComponent name)
    : a ∈ ancestorsOf (dir.join name) ↔ a = dir ∨ a ∈ ancestorsOf dir := by
  rw [mem_ancestorsOf_iff_parent (isDir.wellFormed_join component).1,
    (isDir.split_join component).1]

private theorem first_component (formed : WellFormed path)
    : ∃ name, IsComponent name ∧ (path = name ∨ ∃ rest, path = name ++ slash :: rest) := by
  by_cases nested : slash ∈ path
  · obtain ⟨name, rest, split, bare⟩ := List.eq_append_cons_of_mem nested
    refine ⟨name, ⟨?_, bare⟩, Or.inr ⟨rest, split⟩⟩
    rw [split] at formed
    exact (wellFormed_append.mp formed).1.1
  · exact ⟨path, ⟨formed.1, nested⟩, Or.inl rfl⟩

/-- Below a directory, every path goes through a child of it. -/
theorem WellFormed.child_towards (formed : WellFormed path) (above : dir ∈ ancestorsOf path)
    : IsDirPath dir
      ∧ ∃ name, IsComponent name
          ∧ (path = dir.join name ∨ dir.join name ∈ ancestorsOf path) := by
  by_cases root : dir = []
  · subst root
    refine ⟨Or.inl rfl, ?_⟩
    obtain ⟨name, component, same | ⟨rest, split⟩⟩ := first_component formed
    · exact ⟨name, component, Or.inl same⟩
    · refine ⟨name, component, Or.inr ?_⟩
      rw [join_root, split]
      exact mem_ancestorsOf_append _ _
  · have dirFormed := formed.ancestor above root
    refine ⟨Or.inr dirFormed, ?_⟩
    obtain ⟨rest, rfl⟩ := (mem_ancestorsOf_iff_append root).mp above
    obtain ⟨name, component, same | ⟨more, split⟩⟩ :=
      first_component (wellFormed_append.mp formed).2
    · exact ⟨name, component, Or.inl (by rw [dirFormed.join, same])⟩
    · refine ⟨name, component, Or.inr ?_⟩
      rw [dirFormed.join, mem_ancestorsOf_append_iff root]
      exact Or.inr (Or.inr ⟨name, more, split, rfl⟩)

end Gfs.Types
