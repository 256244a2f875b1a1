import Gfs.Overlay.Effects

/-! The reference model's operations as updates of a function of the path, under the
conditions the overlay's own operations are admitted by.
-/

namespace Gfs.Overlay

open Gfs.Types
open Gfs.Lib.Overwrites
open Std (ExtTreeMap ExtTreeSet)

variable {live : Live}

/-- What a model's map shows at a path. -/
def Model.shown (model : Model) (path : BytePath) : Option Node :=
  model.live[path]?

-- One path

theorem Model.shown_insert (live : Live) (path : BytePath) (node : Node)
    : (Model.mk (live.insert path node)).shown
      = Function.update (Model.mk live).shown path (some node) := by
  funext other
  rw [Function.update_apply, Model.shown, Model.shown, ExtTreeMap.getElem?_insert]
  by_cases same : other = path
  · subst same
    simp
  · rw [if_neg same, if_neg]
    exact fun equal => same (Std.LawfulEqCmp.compare_eq_iff_eq.mp equal).symm

theorem Model.shown_erase (live : Live) (path : BytePath)
    : (Model.mk (live.erase path)).shown
      = Function.update (Model.mk live).shown path none := by
  funext other
  rw [Function.update_apply, Model.shown, Model.shown, ExtTreeMap.getElem?_erase]
  by_cases same : other = path
  · subst same
    simp
  · rw [if_neg same, if_neg]
    exact fun equal => same (Std.LawfulEqCmp.compare_eq_iff_eq.mp equal).symm

theorem Model.checkParent_ok {model : Model} {path : BytePath}
    : model.checkParent path = .ok ()
      ↔ parentOf path = []
        ∨ (model.shown (parentOf path)).map Node.kind = some .directory := by
  unfold Model.checkParent Model.get Model.shown
  by_cases root : parentOf path = []
  · simp [root]
  · rw [if_neg root]
    cases found : model.live[parentOf path]? with
    | none => simp [root]
    | some node => cases kind : node.kind <;> simp [root, kind, OverlayKind.isDir]

/-- A node is put under a usable parent where nothing is, and nowhere else. -/
theorem Model.insertNew_spec (model : Model) (path : BytePath) (node : Node)
    : (∃ refusal,
        model.insertNew path node = .error refusal
        ∧ ¬ ((parentOf path = []
                ∨ (model.shown (parentOf path)).map Node.kind = some .directory)
              ∧ model.shown path = none))
      ∨ (((parentOf path = []
              ∨ (model.shown (parentOf path)).map Node.kind = some .directory)
            ∧ model.shown path = none)
          ∧ model.insertNew path node = .ok ⟨model.live.insert path node⟩) := by
  rw [← Model.checkParent_ok]
  unfold Model.insertNew
  cases checked : model.checkParent path with
  | error refusal => exact Or.inl ⟨refusal, rfl, by simp⟩
  | ok _ =>
      cases found : model.shown path with
      | some there =>
          have taken : (model.get path).isSome = true := by
            rw [Model.get, show model.live[path]? = some there from found]
            rfl
          exact Or.inl ⟨.exists, by simp [bind, Except.bind, taken, throw, throwThe,
            MonadExceptOf.throw], by simp⟩
      | none =>
          have free : (model.get path).isSome = false := by
            rw [Model.get, show model.live[path]? = none from found]
            rfl
          exact Or.inr ⟨⟨rfl, rfl⟩, by simp [bind, Except.bind, free, pure, Except.pure]⟩

/-- A directory of a tree-shaped model is empty exactly when nothing is below it. -/
theorem Model.isEmptyDir_iff {model : Model} {dir : BytePath} (isDir : IsDirPath dir)
    (formed : ∀ path node, model.shown path = some node → WellFormed path)
    (nested
      : ∀ path above, (model.shown path).isSome = true → above ∈ ancestorsOf path
          → above ≠ [] → (model.shown above).isSome = true)
    : model.isEmptyDir dir = true
      ↔ ∀ below, dir ∈ ancestorsOf below → model.shown below = none := by
  have held {path : BytePath} : path ∈ model.live.keys ↔ (model.shown path).isSome = true := by
    rw [ExtTreeMap.mem_keys, ← ExtTreeMap.isSome_getElem?_iff_mem]
    rfl
  have child {name : Bytes} (component : IsComponent name)
      : dir ∈ ancestorsOf (dir.join name) :=
    (isDir.mem_ancestorsOf_join component).mpr (Or.inl rfl)
  simp only [Model.isEmptyDir, Bool.not_eq_true', List.any_eq_false, held]
  constructor
  · intro empty below above
    cases found : model.shown below with
    | none => rfl
    | some node =>
        obtain ⟨-, name, component, towards⟩ := (formed below node found).child_towards above
        have childShown : (model.shown (dir.join name)).isSome = true := by
          rcases towards with same | member
          · rw [← same, found]
            rfl
          · exact nested below _ (by rw [found]; rfl) member
              (isDir.wellFormed_join component).1
        have listed := (childName_eq_some isDir).mpr ⟨component, rfl⟩
        exact absurd (by rw [listed]; rfl) (empty _ childShown)
  · intro bare path shown listed
    obtain ⟨name, called⟩ := Option.isSome_iff_exists.mp listed
    obtain ⟨component, rfl⟩ := (childName_eq_some isDir).mp called
    rw [bare _ (child component)] at shown
    cases shown

-- Bytes

/-- The model's write is the file's, unless an empty write starts past the end. -/
theorem Model.overwriteAt_eq {file : Bytes} {offset : Nat} {data : Bytes}
    (inside : data = [] → offset ≤ file.length)
    : Model.overwriteAt offset data file = writeBytes file offset data := by
  unfold Model.overwriteAt writeBytes
  by_cases empty : data = []
  · subst empty
    have bound := inside rfl
    simp [Nat.not_lt.mpr bound]
  · rw [if_neg empty]
    simp only
    by_cases short : file.length < offset + data.length
    · rw [if_pos short, setLen, List.take_of_length_le (Nat.le_of_lt short)]
      have padded : (file ++ List.replicate (offset + data.length - file.length) 0).take offset
          = file.take offset ++ List.replicate (offset - file.length) 0 := by
        rw [List.take_append, List.take_replicate]
        congr 2
        omega
      have dropped
          : (file ++ List.replicate (offset + data.length - file.length) (0 : UInt8)).drop
              (offset + data.length) = [] := by
        refine List.drop_eq_nil_of_le ?_
        simp only [List.length_append, List.length_replicate]
        omega
      rw [padded, dropped, List.drop_eq_nil_of_le (Nat.le_of_lt short)]
    · rw [if_neg short]
      have fits : offset - file.length = 0 := by omega
      rw [fits, List.replicate_zero, List.append_nil]

theorem Model.editContent_spec (model : Model) (path : BytePath) (edit : Bytes → Bytes)
    : (∃ refusal,
        model.editContent path edit = .error refusal
        ∧ ∀ node, model.shown path = some node → node.kind.isFile = false)
      ∨ (∃ node,
          model.shown path = some node
          ∧ node.kind.isFile = true
          ∧ model.editContent path edit
            = .ok ⟨model.live.insert path ⟨node.kind, edit node.content⟩⟩) := by
  unfold Model.editContent Model.shown
  cases found : model.live[path]? with
  | none => exact Or.inl ⟨.noEntry, rfl, by simp⟩
  | some node =>
      by_cases directory : node.kind.isDir = true
      · refine Or.inl ⟨.isDirectory, by simp [directory], ?_⟩
        rintro _ ⟨⟩
        rw [OverlayKind.isDir_iff.mp directory]
        rfl
      · by_cases link : node.kind = .symlink
        · refine Or.inl ⟨.invalid, by simp [link, OverlayKind.isDir], ?_⟩
          rintro _ ⟨⟩
          rw [link]
          rfl
        · exact Or.inr ⟨node, rfl, OverlayKind.isFile_of_ne directory link,
            by simp [directory, link]⟩

-- A rename

/-- The map with everything at or under a path taken away. -/
private theorem getElem?_cleared (live : Live) (target path : BytePath)
    : ((live.keys.filter (isWithin · target)).foldl (fun live path => live.erase path)
        live)[path]?
      = if isWithin path target then none else live[path]? := by
  have erases : ∀ (paths : List BytePath) (start : Live),
      paths.foldl (fun live path => live.erase path) start
      = overwrite start (paths.map (fun path => (path, none))) := by
    intro paths start
    rw [overwrite, List.foldl_map]
  rw [erases, getElem?_overwrite]
  have wrote {value : Option Node}
      (member
        : (path, value)
          ∈ (live.keys.filter (isWithin · target)).map (fun path => (path, none)))
      : value = none ∧ isWithin path target = true := by
    obtain ⟨doomed, listed, same⟩ := List.mem_map.mp member
    simp only [Prod.mk.injEq] at same
    obtain ⟨rfl, rfl⟩ := same
    exact ⟨rfl, (List.mem_filter.mp listed).2⟩
  cases last : lastWrite path _ with
  | some value =>
      obtain ⟨rfl, within⟩ := wrote (mem_of_lastWrite last)
      rw [if_pos within]
      rfl
  | none =>
      by_cases within : isWithin path target = true
      · rw [if_pos within]
        cases found : live[path]? with
        | none => rfl
        | some node =>
            have key : path ∈ live.keys := by
              rw [ExtTreeMap.mem_keys, ← ExtTreeMap.isSome_getElem?_iff_mem, found]
              rfl
            have member : (path, (none : Option Node))
                ∈ (live.keys.filter (isWithin · target)).map (fun path => (path, none)) :=
              List.mem_map.mpr ⟨path, List.mem_filter.mpr ⟨key, within⟩, rfl⟩
            obtain ⟨value, written⟩ := exists_lastWrite member
            rw [last] at written
            cases written
      · rw [if_neg within]
        rfl

private theorem moves_eq_overwrite (source target : BytePath) (movers : List (BytePath × Node))
    (start : Live)
    : movers.foldl
        (fun live row =>
          (live.erase row.1).insert (target ++ row.1.drop source.length) row.2)
        start
      = overwrite start
          (movers.flatMap (fun row =>
            [(row.1, none), (target ++ row.1.drop source.length, some row.2)])) := by
  induction movers generalizing start with
  | nil => rfl
  | cons row rest ih =>
      rw [List.foldl_cons, ih, List.flatMap_cons]
      rfl

private theorem isWithin_append {dir path : BytePath} (nonroot : dir ≠ [])
    (within : isWithin path dir = true)
    : path = dir ++ path.drop dir.length := by
  rw [isWithin_iff] at within
  rcases within with root | rfl | ⟨rest, rfl⟩
  · exact absurd root nonroot
  · simp
  · rw [List.drop_left]

private theorem isWithin_transfer {dir other path : BytePath} (nonroot : dir ≠ [])
    (within : isWithin path dir = true)
    : isWithin (other ++ path.drop dir.length) other = true := by
  rw [isWithin_iff] at within ⊢
  rcases within with root | rfl | ⟨rest, rfl⟩
  · exact absurd root nonroot
  · right
    left
    simp
  · right
    right
    exact ⟨rest, by rw [List.drop_left]⟩

/-- The model's rename moves everything at and below its source, when neither end is inside
the other. Witness: the writes to a path are those of the one row that moves onto it or
away from it.
-/
theorem Model.shown_relocate {source target : BytePath} (sourceRoot : source ≠ [])
    (targetRoot : target ≠ [])
    (apart
      : ∀ path, isWithin path source = true → isWithin path target = true → False)
    : (Model.mk (Model.relocate live source target)).shown
      = relocated source target (Model.mk live).shown := by
  funext path
  let cleared :=
    (live.keys.filter (isWithin · target)).foldl (fun live path => live.erase path) live
  have mover {row : BytePath × Node}
      (member : row ∈ cleared.toList.filter (fun row => isWithin row.1 source))
      : isWithin row.1 source = true ∧ live[row.1]? = some row.2 := by
    obtain ⟨listed, within⟩ := List.mem_filter.mp member
    have found := ExtTreeMap.mem_toList_iff_getElem?_eq_some.mp listed
    rw [getElem?_cleared] at found
    split at found
    · cases found
    · exact ⟨within, found⟩
  have movers {old : BytePath} {node : Node} (within : isWithin old source = true)
      (found : live[old]? = some node)
      : (old, node) ∈ cleared.toList.filter (fun row => isWithin row.1 source) := by
    refine List.mem_filter.mpr ⟨ExtTreeMap.mem_toList_iff_getElem?_eq_some.mpr ?_, within⟩
    rw [getElem?_cleared, if_neg (fun inside => apart old within inside)]
    exact found
  have written {value : Option Node}
      (member
        : (path, value)
          ∈ (cleared.toList.filter (fun row => isWithin row.1 source)).flatMap
              (fun row =>
                [(row.1, none), (target ++ row.1.drop source.length, some row.2)]))
      : (isWithin path source = true ∧ value = none)
        ∨ (isWithin path target = true
            ∧ value = live[source ++ path.drop target.length]?) := by
    obtain ⟨⟨old, node⟩, listed, here⟩ := List.mem_flatMap.mp member
    obtain ⟨within, found⟩ := mover listed
    simp only [List.mem_cons, Prod.mk.injEq, List.not_mem_nil, or_false] at here
    rcases here with ⟨rfl, rfl⟩ | ⟨rfl, rfl⟩
    · exact Or.inl ⟨within, rfl⟩
    · refine Or.inr ⟨isWithin_transfer sourceRoot within, ?_⟩
      rw [List.drop_left, ← isWithin_append sourceRoot within, found]
  have unwritten
      (none_
        : lastWrite path
            ((cleared.toList.filter (fun row => isWithin row.1 source)).flatMap
              (fun row =>
                [(row.1, none), (target ++ row.1.drop source.length, some row.2)])) = none)
      {old : BytePath} {node : Node} (within : isWithin old source = true)
      (found : live[old]? = some node)
      (hits : path = old ∨ path = target ++ old.drop source.length)
      : False := by
    have listed := movers within found
    have member : ∃ value, (path, value)
        ∈ (cleared.toList.filter (fun row => isWithin row.1 source)).flatMap
            (fun row =>
              [(row.1, none), (target ++ row.1.drop source.length, some row.2)]) := by
      rcases hits with rfl | rfl
      · exact ⟨none, List.mem_flatMap.mpr ⟨(_, node), listed, by simp⟩⟩
      · exact ⟨some node, List.mem_flatMap.mpr ⟨(old, node), listed, by simp⟩⟩
    obtain ⟨value, member⟩ := member
    obtain ⟨last, written⟩ := exists_lastWrite member
    rw [none_] at written
    cases written
  show (Model.relocate live source target)[path]? = relocated source target _ path
  rw [Model.relocate, moves_eq_overwrite, getElem?_overwrite]
  unfold relocated Model.shown
  cases last : lastWrite path _ with
  | some value =>
      rcases written (mem_of_lastWrite last) with ⟨within, rfl⟩ | ⟨within, rfl⟩
      · rw [if_neg (fun inside => apart path within inside), if_pos within]
        rfl
      · rw [if_pos within]
        rfl
  | none =>
      simp only [Option.getD_none]
      rw [getElem?_cleared]
      by_cases within : isWithin path target = true
      · rw [if_pos within, if_pos within]
        cases found : live[source ++ path.drop target.length]? with
        | none => rfl
        | some node =>
            exfalso
            refine unwritten last (isWithin_transfer targetRoot within) found (Or.inr ?_)
            rw [List.drop_left, ← isWithin_append targetRoot within]
      · rw [if_neg within, if_neg within]
        by_cases leaving : isWithin path source = true
        · rw [if_pos leaving]
          cases found : live[path]? with
          | none => rfl
          | some node => exact absurd (unwritten last leaving found (Or.inl rfl)) id
        · rw [if_neg leaving]

end Gfs.Overlay
