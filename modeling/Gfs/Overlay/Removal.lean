import Gfs.Overlay.Emptiness

/-! Removals and renames as steps of the overlay's core.
-/

namespace Gfs.Overlay

open Gfs.Types
open Gfs.Lib.Overwrites
open Std (ExtTreeMap ExtTreeSet)

variable {digests : Digests} {base : BaseTree}

-- The rows under a directory

private theorem byte_range (byte : UInt8)
    : ((compare slash byte).isLE = true ∧ compare byte (slash + 1) = .lt) ↔ byte = slash := by
  rw [Std.isLE_compare, Std.compare_eq_lt, UInt8.le_iff_toNat_le, UInt8.lt_iff_toNat_lt,
    ← UInt8.toNat_inj]
  have low : slash.toNat = 47 := rfl
  have high : (slash + 1).toNat = 48 := rfl
  omega

/-- The byte strings from `dir/` up to `dir0` are those that continue `dir/`. -/
theorem compare_range (dir path : BytePath)
    : ((compare (dir ++ [slash]) path).isLE = true
        ∧ compare path (dir ++ [slash + 1]) = .lt)
      ↔ ∃ rest, path = dir ++ slash :: rest := by
  induction dir generalizing path with
  | nil =>
      cases path with
      | nil => simp
      | cons head tail =>
          have lower : ((compare slash head).then (compare [] tail)).isLE
              = (compare slash head).isLE := by
            have least : (compare [] tail).isLE = true := List.isLE_compare_nil_left
            cases compare slash head <;> simp [Ordering.then, least]
          have upper : (compare head (slash + 1)).then (compare tail []) = .lt
              ↔ compare head (slash + 1) = .lt := by
            have most : compare tail [] ≠ .lt := by cases tail <;> simp
            cases compare head (slash + 1) <;> simp [Ordering.then, most]
          simp only [List.nil_append, List.compare_cons_cons, List.cons.injEq, lower, upper,
            byte_range]
          exact ⟨fun same => ⟨tail, same, rfl⟩, fun same => same.elim fun _ both => both.1⟩
  | cons first dir ih =>
      cases path with
      | nil => simp
      | cons head tail =>
          simp only [List.cons_append, List.compare_cons_cons, List.cons.injEq]
          have self : compare first first = .eq := Std.ReflCmp.compare_self
          cases order : compare first head with
          | lt =>
              have flipped : compare head first = .gt := Std.OrientedCmp.gt_of_lt order
              have apart : head ≠ first := by
                intro same
                rw [same, self] at order
                cases order
              simp [flipped, apart]
          | gt =>
              have apart : head ≠ first := by
                intro same
                rw [same, self] at order
                cases order
              simp [apart]
          | eq =>
              have same : first = head := Std.LawfulEqCmp.eq_of_compare order
              subst same
              simp only [self, Ordering.then, true_and]
              exact ih tail

private theorem mem_range {rows : Rows} {dir path : BytePath} {entry : OverlayEntry}
    : (path, entry)
        ∈ rows.toList.filter (fun row =>
            (compare (dir ++ [slash]) row.1).isLE
            && compare row.1 (dir ++ [slash + 1]) == .lt)
      ↔ rows[path]? = some entry ∧ ∃ rest, path = dir ++ slash :: rest := by
  simp only [List.mem_filter, Bool.and_eq_true, beq_iff_eq, compare_range,
    ExtTreeMap.mem_toList_iff_getElem?_eq_some]

theorem mem_rowsUnder {rows : Rows} {dir : BytePath} (nonroot : dir ≠ [])
    {entry : OverlayEntry}
    : entry ∈ rowsUnder rows dir
      ↔ ∃ rel : BytePath, rows[dir ++ slash :: rel]? = some entry := by
  simp only [rowsUnder, nonroot, ↓reduceIte, List.mem_map, Prod.exists, mem_range]
  constructor
  · intro listed
    obtain ⟨path, row, ⟨found, rest, rfl⟩, rfl⟩ := listed
    exact ⟨rest, found⟩
  · intro there
    obtain ⟨rel, found⟩ := there
    exact ⟨_, entry, ⟨found, rel, rfl⟩, rfl⟩

/-- `scanned` is what the map holds under a directory, in path order and once each: every row for
the root, and for any other directory the rows strictly within it, which are those that have it
among their ancestors. A row at the root's own path has no ancestor.
-/
structure ScansSubtree (rows : Rows) (dir : BytePath) (scanned : List (BytePath × OverlayEntry))
    : Prop where
  ordered : scanned.Pairwise (fun before after => compare before.1 after.1 = .lt)
  within
    : ∀ path entry,
        (path, entry) ∈ scanned
        ↔ rows[path]? = some entry ∧ (dir = [] ∨ path ≠ dir ∧ isWithin path dir = true)
  below
    : ∀ path entry, path ≠ [] ∨ dir ≠ []
        → ((path, entry) ∈ scanned ↔ rows[path]? = some entry ∧ dir ∈ ancestorsOf path)
  siblings
    : dir ≠ [] → ∀ byte, byte ≠ slash → ∀ rest entry, (dir ++ byte :: rest, entry) ∉ scanned

/-- The range of the map from `dir/` up to `dir0` is exactly the subtree of the directory.
Witness: the listing of the map, cut down to the range.
-/
theorem rowsUnder_exact (rows : Rows) (dir : BytePath)
    : ∃ scanned, rowsUnder rows dir = scanned.map Prod.snd ∧ ScansSubtree rows dir scanned := by
  have sorted := ExtTreeMap.ordered_keys_toList (t := rows)
  by_cases root : dir = []
  · subst root
    have listed (path : BytePath) (entry : OverlayEntry)
        : (path, entry) ∈ rows.toList ↔ rows[path]? = some entry :=
      ExtTreeMap.mem_toList_iff_getElem?_eq_some
    refine ⟨rows.toList, by rw [rowsUnder, if_pos rfl], sorted, ?_, ?_, fun nonroot => ?_⟩
    · intro path entry
      rw [listed, and_iff_left (Or.inl rfl)]
    · intro path entry away
      have nonroot : path ≠ [] := away.resolve_right (fun nonroot => nonroot rfl)
      have above : ([] : BytePath) ∈ ancestorsOf path :=
        mem_ancestorsOf.mpr ⟨nonroot, Or.inl rfl⟩
      rw [listed, and_iff_left above]
    · exact absurd rfl nonroot
  · refine ⟨_, by rw [rowsUnder, if_neg root], sorted.sublist List.filter_sublist, ?_, ?_, ?_⟩
    · intro path entry
      rw [mem_range, ← mem_ancestorsOf_iff_append root, isWithin_iff_ancestor root,
        or_iff_right root]
      constructor
      · intro inside
        refine ⟨inside.1, ?_, Or.inr inside.2⟩
        intro same
        rw [same] at inside
        exact not_mem_ancestorsOf_self dir inside.2
      · intro inside
        exact ⟨inside.1, inside.2.2.resolve_left inside.2.1⟩
    · intro path entry _
      rw [mem_range, ← mem_ancestorsOf_iff_append root]
    · intro _ byte apart rest entry member
      obtain ⟨-, other, same⟩ := mem_range.mp member
      exact apart (List.cons.inj (List.append_cancel_left same)).1

-- Removing

theorem facts_or {core : Core} (sound : Sound digests base core) (path : BytePath)
    : (core.rows[path]?.bind OverlayEntry.base).or (base.facts digests path)
      = base.facts digests path := by
  cases found : core.rows[path]? with
  | none => rfl
  | some entry =>
      rcases sound.facts path entry found with unknown | known
      · simp [unknown]
      · simp only [Option.bind_some, known]
        cases base.facts digests path <;> rfl

theorem departure_left {core : Core} (sound : Sound digests base core) (path : BytePath)
    (now : Timestamp)
    : ∃ row,
        (Overlay.departure core.rows[path]? path (base.facts digests path) now).write
          = (path, row)
        ∧ LeftBehind digests base path row
        ∧ (WellFormed path
            → Change.Formed
                (Overlay.departure core.rows[path]? path (base.facts digests path) now)) := by
  unfold Overlay.departure LeftBehind
  rw [facts_or sound]
  cases base.facts digests path with
  | none => exact ⟨none, rfl, rfl, fun _ => trivial⟩
  | some facts => exact ⟨_, rfl, ⟨_, _, rfl⟩, fun formed => formed⟩

/-- When a removal is admitted: something of the expected kind shows, and nothing below it. -/
def Removable (base : BaseTree) (rows : Rows) (path : BytePath) (expectDir : Bool) : Prop :=
  ∃ kind, kindAt base rows path = some kind
    ∧ kind.isDir = expectDir
    ∧ ∀ below, path ∈ ancestorsOf below → kindAt base rows below = none

/-- The commit of a departure with the parent touched. -/
theorem depart_commit {overlay : Overlay} {path : BytePath} {parent : Parent}
    {hidden now : Timestamp} {release : List Nat} (sound : Sound digests base overlay.core)
    (truthful : parent.base = base.facts digests (parentOf path)) (formed : WellFormed path)
    (shows : (kindAt base overlay.entries path).isSome = true)
    (bare : ∀ below, path ∈ ancestorsOf below → kindAt base overlay.entries below = none)
    (released
      : ∀ id, id ∈ release → ∃ entry, overlay.entries[path]? = some entry
          ∧ entry.content = .local id)
    : ∃ mid,
        Step digests base (.depart path) overlay.core mid
        ∧ LeftBehind digests base path mid.rows[path]?
        ∧ (∀ other : BytePath, other ≠ path → mid.rows[other]? = overlay.entries[other]?)
        ∧ (∀ (other : BytePath) (row : OverlayEntry) (id : Nat),
            other ≠ path → overlay.entries[other]? = some row → row.content = .local id
            → mid.files[id]? = overlay.files[id]?)
        ∧ Touches digests base mid
            (overlay.commitTouching path parent
              [Overlay.departure overlay.entries[path]? path (base.facts digests path) hidden]
              release now).core
        ∧ (overlay.Indexed
            → (overlay.commitTouching path parent
                [Overlay.departure overlay.entries[path]? path (base.facts digests path) hidden]
                release now).Indexed) := by
  obtain ⟨row, write, left, changeFormed⟩ := departure_left sound path hidden
  simp only [Overlay.core] at write changeFormed
  have here : (overwrite overlay.entries [(path, row)])[path]? = row := by
    rw [getElem?_overwrite]
    simp
  have others : ∀ other : BytePath, other ≠ path
      → (overwrite overlay.entries [(path, row)])[other]? = overlay.entries[other]? := by
    intro other apart
    rw [getElem?_overwrite]
    simp [Ne.symm apart]
  refine ⟨⟨overwrite overlay.entries [(path, row)], release.foldl (·.erase ·) overlay.files,
    overlay.nextContentId⟩, ?_, ?_, others, ?_, ?_, ?_⟩
  · exact .depart shows formed bare (here.symm ▸ left) others released
  · exact here.symm ▸ left
  · intro other entry id apart found content
    exact sound.kept apart released found content
  · rw [commitTouching_core sound truthful]
    simp only [List.map_cons, List.map_nil, write]
    obtain ⟨same, alike⟩ := @resolve_of_same overlay.entries
      (overwrite overlay.entries [(path, row)]) (parentOf path)
      (fun dir above => others dir (ne_of_parent formed.1 above))
    exact @touches_of_parentTouch _ _ _ _ _ _ ⟨_, _, _⟩ sound truthful same alike
  · intro tidy
    refine commitTouching_indexed sound truthful tidy ?_
    intro change member
    rw [List.mem_singleton.mp member]
    exact changeFormed formed

theorem remove_spec {overlay : Overlay} {host later : Timestamp} {path : BytePath}
    {parent : Parent} {expectDir : Bool} (sound : Sound digests base overlay.core)
    (indexed : overlay.Indexed)
    (truthful : parent.base = base.facts digests (parentOf path))
    {empty : Bool}
    (asked : expectDir = true → empty = overlay.mergedDirIsEmpty path (base.childNames path))
    : (∃ refusal,
        overlay.remove host later path (base.facts digests path) parent expectDir empty
          = (.error refusal, overlay)
        ∧ ¬ Removable base overlay.entries path expectDir)
      ∨ (Removable base overlay.entries path expectDir
          ∧ ∃ after mid,
              overlay.remove host later path (base.facts digests path) parent expectDir empty
                = (.ok (), after)
              ∧ Step digests base (.depart path) overlay.core mid
              ∧ WellFormed path
              ∧ LeftBehind digests base path mid.rows[path]?
              ∧ (∀ other : BytePath, other ≠ path → mid.rows[other]? = overlay.entries[other]?)
              ∧ (∀ (other : BytePath) (row : OverlayEntry) (id : Nat),
                  other ≠ path → overlay.entries[other]? = some row → row.content = .local id
                  → mid.files[id]? = overlay.files[id]?)
              ∧ Touches digests base mid after.core
              ∧ after.Indexed) := by
  unfold Overlay.remove Overlay.attemptRemove
  by_cases root : path = []
  · rw [if_pos root]
    refine Or.inl ⟨.invalid, rfl, ?_⟩
    intro removable
    obtain ⟨kind, shows, -⟩ := removable
    exact (sound.formed_of_shows shows).1 root
  · rw [if_neg root, existing_eq]
    cases shows : kindAt base overlay.entries path with
    | none =>
        refine Or.inl ⟨.noEntry, rfl, ?_⟩
        intro removable
        obtain ⟨kind, there, -⟩ := removable
        rw [shows] at there
        cases there
    | some kind =>
        have formed := sound.formed_of_shows shows
        simp only [Option.map_some, OverlayKind.isDirLike_toEntryKind]
        by_cases wrong : kind.isDir = expectDir
        swap
        · have refused : ¬ Removable base overlay.entries path expectDir := by
            intro removable
            obtain ⟨other, there, same, -⟩ := removable
            rw [shows] at there
            cases there
            exact wrong same
          cases expectDir <;> cases dir : kind.isDir <;> simp_all [Attempt.complete]
        · by_cases bare
              : ∀ below, path ∈ ancestorsOf below → kindAt base overlay.entries below = none
          swap
          · have dir : kind.isDir = true := by
              cases leaf : kind.isDir with
              | true => rfl
              | false =>
                  refine absurd (fun below above => ?_) bare
                  refine sound.placed.bare_of_leaf ?_ formed.1 above
                  simp only [Overlay.core, shows, ne_eq, Option.some.injEq]
                  intro same
                  rw [same] at leaf
                  cases leaf
            have expected : expectDir = true := wrong.symm.trans dir
            have crowded : empty = false := by
              rw [asked expected, ← Bool.not_eq_true,
                mergedDirIsEmpty_iff sound indexed (Or.inr formed)]
              exact bare
            refine Or.inl ⟨.notEmpty, ?_, ?_⟩
            · simp [dir, expected, crowded, Attempt.complete]
            · intro removable
              obtain ⟨-, -, -, nothing⟩ := removable
              exact bare nothing
          · have emptied : (kind.isDir && !empty) = false := by
              cases dir : kind.isDir with
              | false => rfl
              | true =>
                  have expected : expectDir = true := wrong.symm.trans dir
                  rw [asked expected,
                    (mergedDirIsEmpty_iff sound indexed (Or.inr formed)).mpr bare]
                  rfl
            have doomed
                : (if kind.isDir = true then
                    (rowsUnder overlay.entries path).filter (·.present)
                  else []) = [] := by
              split
              · refine List.filter_eq_nil_iff.mpr ?_
                intro entry member
                obtain ⟨rel, found⟩ := (mem_rowsUnder formed.1).mp member
                rw [sound.placed.not_present sound.keyed
                  (bare _ (mem_ancestorsOf_append _ _)) found]
                exact Bool.false_ne_true
              · rfl
            refine Or.inr ⟨⟨kind, shows, wrong, bare⟩, ?_⟩
            have first : (expectDir && !kind.isDir) = false := by simp [wrong]
            have second : (!expectDir && kind.isDir) = false := by simp [wrong]
            simp only [first, second, emptied, Bool.false_eq_true, ↓reduceIte, doomed,
              List.map_nil, List.nil_append, List.filterMap_nil, List.append_nil]
            have released : ∀ id, id ∈ (overlay.entries[path]?.bind (·.content.localId)).toList
                → ∃ entry, overlay.entries[path]? = some entry ∧ entry.content = .local id := by
              intro id member
              obtain ⟨entry, found, content⟩ :=
                Option.bind_eq_some_iff.mp (Option.mem_toList.mp member)
              exact ⟨entry, found, localId_eq_some.mp content⟩
            have some_ : (kindAt base overlay.entries path).isSome = true := by
              rw [shows]
              rfl
            -- A whiteout takes a clock reading of its own; it moves only the clock.
            split
            · obtain ⟨mid, step, left, others, files, touches, tidy⟩ :=
                @depart_commit _ _ (((overlay.nextTime host).2).nextTime later).2 path parent
                  (overlay.nextTime host).1 (((overlay.nextTime host).2).nextTime later).1 _
                  sound truthful formed some_ bare released
              exact ⟨_, mid, rfl, step, formed, left, others, files, touches,
                tidy (indexed.congr rfl rfl)⟩
            · obtain ⟨mid, step, left, others, files, touches, tidy⟩ :=
                @depart_commit _ _ (overlay.nextTime host).2 path parent overlay.clock
                  (overlay.nextTime host).1 _ sound truthful formed some_ bare released
              exact ⟨_, mid, rfl, step, formed, left, others, files, touches,
                tidy (indexed.congr rfl rfl)⟩

end Gfs.Overlay
