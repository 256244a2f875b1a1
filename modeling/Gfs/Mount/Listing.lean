import Gfs.Overlay.Requests
import Gfs.Overlay.Walk
import Gfs.Overlay.Refinement
import Gfs.Types.Error

/-! Directory listings of the mount (`gfs-mount/src/fs.rs`): the base's names filtered through
the overlay, then the overlay's own, beside the lookup of one name and the question whether a
directory is empty.
-/

namespace Gfs.Mount

open Gfs.Types
open Gfs.Overlay
open Std (ExtTreeMap ExtTreeSet)

/-- What the service says of a path it rejects. -/
def refusalMessage : PathRefusal → String
  | .exceedsBytes => "path exceeds 4096 bytes"
  | .containsNul => "path contains NUL"
  | .absolute => "path is absolute; snapshot paths are relative to the tree root"
  | .emptyComponent => "path has an empty component"
  | .relativeComponent => "path contains a relative component"
  | .exceedsComponents => "path exceeds 256 components"

/-- `BytePath::validate`, with its refusal as the service reports it. -/
def validated (path : BytePath) : Except GfsError Unit :=
  path.validate.mapError (fun refusal => .invalid (refusalMessage refusal))

/-- One entry of a pinned directory. -/
structure TreeEntryInfo where
  path : BytePath
  kind : EntryKind
  mode : Nat
  oid : ObjectId
  size : Nat
  symlinkTarget : Option Bytes
  deriving DecidableEq

/-- The last component of the entry's path. -/
def TreeEntryInfo.name (entry : TreeEntryInfo) : Bytes :=
  entry.path.fileName.getD []

/-- A directory's complete base listing, in the server's order. -/
abbrev Listing := List TreeEntryInfo

/-- The entry for a child name, by the index of names: the last one of a name is kept. -/
def Listing.get (listing : Listing) (name : Bytes) : Option TreeEntryInfo :=
  listing.reverse.find? (fun entry => entry.name = name)

/-- What the pinned snapshot answers: one entry, and the complete listing of a directory. Either
may fail.
-/
structure SnapshotSource where
  baseEntry : BytePath → Except GfsError (Option TreeEntryInfo)
  baseListing : BytePath → Except GfsError Listing

/-- A resolved child in a directory listing. -/
inductive Child where
  | base (entry : TreeEntryInfo)
  | overlay (entry : OverlayEntry)
  deriving DecidableEq

def Child.name : Child → Bytes
  | .base entry => entry.name
  | .overlay entry => entry.name

section Definitions

variable (source : SnapshotSource) (overlay : Overlay)

/-- One base entry, answered from its parent's listing. The root has no parent listing. -/
def baseNode (path : BytePath) : Except GfsError (Option TreeEntryInfo) := do
  validated path
  match path.fileName with
  | none => source.baseEntry path
  | some name => do
      let listing ← source.baseListing (parentOf path)
      pure (listing.get name)

/-- Resolve a path across the overlay and the base. -/
def resolvePath (path : BytePath) : Except GfsError (Option Child) :=
  match resolve overlay.entries path with
  | .overlay entry => .ok (some (.overlay entry))
  | .absent => .ok none
  | .base => (baseNode source path).map (Option.map .base)

/-- Resolve one name under a parent in the merged view. -/
def lookupChild (parent : BytePath) (name : Bytes) : Except GfsError (Option Child) :=
  resolvePath source overlay (parent.join name)

/-- The base listing of a directory, which is asked for where no row hides it. -/
def visibleListing (dir : BytePath) : Except GfsError Listing :=
  if masksBase overlay.entries dir then .ok [] else source.baseListing dir

/-- Every name the base has in a directory. -/
def baseChildNames (dir : BytePath) : Except GfsError (List Bytes) := do
  let listing ← visibleListing source overlay dir
  pure (listing.map TreeEntryInfo.name)

/-- Whether a directory is empty in the merged view. -/
def mergedDirIsEmpty (dir : BytePath) : Except GfsError Bool := do
  let names ← baseChildNames source overlay dir
  pure (overlay.mergedDirIsEmpty dir names)

/-- What the listing shows of one base entry. -/
def baseShown (dir : BytePath) (entry : TreeEntryInfo) : Option Child :=
  match resolve overlay.entries (dir.join entry.name) with
  | .absent => none
  | .overlay row => some (.overlay row)
  | .base => some (.base entry)

/-- A directory's full merged listing. -/
def fillDirectory (dir : BytePath) : Except GfsError (List Child) := do
  let listing ← visibleListing source overlay dir
  pure (listing.filterMap (baseShown overlay dir)
    ++ (overlay.extraChildren dir (listing.map TreeEntryInfo.name)).map .overlay)

/-- A directory of the merged view: the root, a row that is a directory, or one of the base's. -/
def IsDirectory (dir : BytePath) : Prop :=
  dir = []
  ∨ (WellFormed dir
    ∧ ((∃ row, resolve overlay.entries dir = .overlay row ∧ row.kind.isDir = true)
      ∨ (resolve overlay.entries dir = .base
        ∧ ∃ entry, baseNode source dir = .ok (some entry) ∧ entry.kind.isDirLike = true)))

/-- The entries of a Git tree: a directory lists every name once. -/
def Listing.IsTree (listing : Listing) : Prop :=
  (listing.map TreeEntryInfo.name).Nodup ∧ ∀ entry ∈ listing, IsComponent entry.name

/-- Whatever directory is listed, what is listed are the entries of a Git tree. -/
def SnapshotSource.ListsTrees : Prop :=
  ∀ dir listing, source.baseListing dir = .ok listing → Listing.IsTree listing

/-- What a name of a directory resolves to: a row of the overlay that is there, or an entry of the
base that no row hides.
-/
def ResolvesTo (dir : BytePath) (name : Bytes) : Child → Prop
  | .overlay row => resolve overlay.entries (dir.join name) = .overlay row
  | .base entry =>
      resolve overlay.entries (dir.join name) = .base
      ∧ ∃ listing, source.baseListing dir = .ok listing ∧ listing.get name = some entry

end Definitions

-- One name

section Names

variable {source : SnapshotSource} {overlay : Overlay} {dir : BytePath} {name : Bytes}

theorem Listing.get_eq_some {listing : Listing}
    (distinct : (listing.map TreeEntryInfo.name).Nodup) {entry : TreeEntryInfo}
    : Listing.get listing name = some entry ↔ entry ∈ listing ∧ entry.name = name := by
  constructor
  · intro found
    rw [Listing.get] at found
    exact ⟨List.mem_reverse.mp (List.mem_of_find?_eq_some found),
      by simpa using List.find?_some found⟩
  · rintro ⟨member, same⟩
    cases found : Listing.get listing name with
    | none =>
        have none_ := List.find?_eq_none.mp found entry (List.mem_reverse.mpr member)
        exact absurd (decide_eq_true same) none_
    | some other =>
        rw [Listing.get] at found
        have listed := List.mem_reverse.mp (List.mem_of_find?_eq_some found)
        have named : other.name = name := by simpa using List.find?_some found
        rw [List.inj_on_of_nodup_map distinct listed member (named.trans same.symm)]

theorem baseNode_join (isDir : IsDirPath dir) (component : IsComponent name)
    : baseNode source (dir.join name)
      = (do
          validated (dir.join name)
          let listing ← source.baseListing dir
          pure (listing.get name)) := by
  obtain ⟨parent, last⟩ := isDir.split_join component
  have named : (dir.join name).fileName = some name := by
    cases found : (dir.join name).fileName with
    | none =>
        rw [found] at last
        exact absurd last.symm component.1
    | some other =>
        rw [found] at last
        exact congrArg some last
  rw [baseNode, named, parent]

theorem IsDirectory.isDirPath (directory : IsDirectory source overlay dir) : IsDirPath dir := by
  rcases directory with root | ⟨formed, -⟩
  · exact .inl root
  · exact .inr formed

/-- Nothing is blocked right below a directory of the merged view. -/
theorem IsDirectory.not_blocked (directory : IsDirectory source overlay dir)
    (keyed : Keyed overlay.entries) (component : IsComponent name)
    : ¬Blocked overlay.entries (dir.join name) := by
  rintro ⟨above, member, entry, found, stops⟩
  have below := (directory.isDirPath.mem_ancestorsOf_join component).mp member
  rcases directory with root | ⟨formed, shows⟩
  · subst root
    have top : above = [] := by
      rcases below with same | higher
      · exact same
      · exact absurd rfl (mem_ancestorsOf.mp higher).1
    exact (keyed above entry found).2.1 top
  · rcases below with rfl | higher
    · rcases shows with ⟨row, resolved, isDir⟩ | ⟨resolved, -⟩
      · obtain ⟨-, own, present⟩ := resolve_eq_overlay.mp resolved
        rw [found] at own
        cases own
        rw [present, isDir] at stops
        simp at stops
      · rw [(resolve_eq_base.mp resolved).2.1] at found
        cases found
    · rcases shows with ⟨row, resolved, -⟩ | ⟨resolved, -⟩
      · exact (resolve_eq_overlay.mp resolved).1 ⟨above, higher, entry, found, stops⟩
      · exact (resolve_eq_base.mp resolved).1 ⟨above, higher, entry, found, stops⟩

theorem IsDirectory.resolve_row (directory : IsDirectory source overlay dir)
    (keyed : Keyed overlay.entries) (component : IsComponent name) {row : OverlayEntry}
    (found : overlay.entries[dir.join name]? = some row) (present : row.present = true)
    : resolve overlay.entries (dir.join name) = .overlay row :=
  resolve_eq_overlay.mpr ⟨directory.not_blocked keyed component, found, present⟩

theorem IsDirectory.masksBase_iff (directory : IsDirectory source overlay dir)
    (keyed : Keyed overlay.entries) (component : IsComponent name)
    : masksBase overlay.entries dir = true ↔ Masked overlay.entries (dir.join name) := by
  rw [Overlay.masksBase_iff directory.isDirPath component]
  exact or_iff_right (directory.not_blocked keyed component)

theorem name_of_row (keyed : Keyed overlay.entries) (isDir : IsDirPath dir)
    (component : IsComponent name) {row : OverlayEntry}
    (found : overlay.entries[dir.join name]? = some row)
    : row.name = name := by
  rw [OverlayEntry.name, (keyed _ row found).1]
  exact (isDir.split_join component).2

theorem ResolvesTo.name_eq (lists : source.ListsTrees) (keyed : Keyed overlay.entries)
    (isDir : IsDirPath dir) (component : IsComponent name) {child : Child}
    (resolves : ResolvesTo source overlay dir name child)
    : child.name = name := by
  cases child with
  | overlay row => exact name_of_row keyed isDir component (resolve_eq_overlay.mp resolves).2.1
  | base entry =>
      obtain ⟨-, listing, opened, known⟩ := resolves
      exact ((Listing.get_eq_some (lists dir listing opened).1).mp known).2

end Names

-- Listings

section Listings

variable {source : SnapshotSource} {overlay : Overlay} {dir : BytePath} {listing : Listing}

variable {entry : TreeEntryInfo} {children : List Child}

theorem visible_mem (visible : visibleListing source overlay dir = .ok listing)
    (member : entry ∈ listing)
    : ¬masksBase overlay.entries dir = true ∧ source.baseListing dir = .ok listing := by
  rw [visibleListing] at visible
  split at visible
  · cases visible
    cases member
  · rename_i shown
    exact ⟨shown, visible⟩

theorem isTree_of_visible (lists : source.ListsTrees)
    (visible : visibleListing source overlay dir = .ok listing)
    : Listing.IsTree listing := by
  rw [visibleListing] at visible
  split at visible
  · cases visible
    exact ⟨.nil, fun _ member => nomatch member⟩
  · exact lists dir listing visible

theorem baseShown_eq_some (lists : source.ListsTrees)
    (visible : visibleListing source overlay dir = .ok listing) (member : entry ∈ listing)
    {child : Child}
    : baseShown overlay dir entry = some child
      ↔ ResolvesTo source overlay dir entry.name child := by
  obtain ⟨-, opened⟩ := visible_mem visible member
  have known := (Listing.get_eq_some (lists dir listing opened).1).mpr ⟨member, rfl⟩
  rw [baseShown]
  cases resolved : resolve overlay.entries (dir.join entry.name) with
  | absent => cases child <;> simp [ResolvesTo, resolved]
  | overlay row => cases child <;> simp [ResolvesTo, resolved]
  | base =>
      cases child with
      | overlay row => simp [ResolvesTo, resolved]
      | base other => simp [ResolvesTo, resolved, opened, known]

theorem mem_extraChildren (indexed : overlay.Indexed) (keyed : Keyed overlay.entries)
    (isDir : IsDirPath dir) {row : OverlayEntry} {names : List Bytes}
    : row ∈ overlay.extraChildren dir names
      ↔ ∃ name, IsComponent name
          ∧ overlay.entries[dir.join name]? = some row
          ∧ row.name = name
          ∧ row.present = true
          ∧ name ∉ names := by
  rw [Overlay.extraChildren, List.mem_filter, mem_childrenOf indexed keyed isDir]
  simp only [Bool.and_eq_true, Bool.not_eq_true', List.contains_eq_mem,
    decide_eq_false_iff_not]
  constructor
  · rintro ⟨⟨name, component, found, same⟩, present, unnamed⟩
    exact ⟨name, component, found, same, present, same ▸ unnamed⟩
  · rintro ⟨name, component, found, same, present, unnamed⟩
    exact ⟨⟨name, component, found, same⟩, present, same ▸ unnamed⟩

theorem fillDirectory_eq_ok
    : fillDirectory source overlay dir = .ok children
      ↔ ∃ listing,
          visibleListing source overlay dir = .ok listing
          ∧ listing.filterMap (baseShown overlay dir)
              ++ (overlay.extraChildren dir (listing.map TreeEntryInfo.name)).map .overlay
            = children := by
  rw [fillDirectory, bind_eq_ok]
  exact exists_congr fun listing => and_congr_right fun _ => iff_of_eq (Except.ok.injEq _ _)

/-- The listing holds what the names of the directory resolve to, and nothing else. Witness: a
name resolves to the base only where the base lists it unmasked, and to a row either under a name
the base lists or as an extra child.
-/
theorem mem_fillDirectory (lists : source.ListsTrees) (indexed : overlay.Indexed)
    (keyed : Keyed overlay.entries) (directory : IsDirectory source overlay dir)
    {children : List Child} (filled : fillDirectory source overlay dir = .ok children)
    {child : Child}
    : child ∈ children
      ↔ IsComponent child.name ∧ ResolvesTo source overlay dir child.name child := by
  have isDir := directory.isDirPath
  obtain ⟨listing, visible, rfl⟩ := fillDirectory_eq_ok.mp filled
  rw [List.mem_append]
  constructor
  · rintro (fromBase | extra)
    · obtain ⟨entry, member, shown⟩ := List.mem_filterMap.mp fromBase
      rw [baseShown_eq_some lists visible member] at shown
      have component := (isTree_of_visible lists visible).2 entry member
      rw [shown.name_eq lists keyed isDir component]
      exact ⟨component, shown⟩
    · obtain ⟨row, listed, rfl⟩ := List.mem_map.mp extra
      obtain ⟨name, component, found, same, present, -⟩ :=
        (mem_extraChildren indexed keyed isDir).mp listed
      rw [Child.name, same]
      exact ⟨component, directory.resolve_row keyed component found present⟩
  · rintro ⟨component, resolves⟩
    by_cases named : ∃ entry ∈ listing, entry.name = child.name
    · obtain ⟨entry, member, same⟩ := named
      refine .inl (List.mem_filterMap.mpr ⟨entry, member, ?_⟩)
      rw [baseShown_eq_some lists visible member, same]
      exact resolves
    · cases child with
      | overlay row =>
          obtain ⟨-, own, present⟩ := resolve_eq_overlay.mp resolves
          refine .inr (List.mem_map_of_mem ?_)
          refine (mem_extraChildren indexed keyed isDir).mpr
            ⟨row.name, component, own, rfl, present, fun listed => named ?_⟩
          exact List.mem_map.mp listed
      | base entry =>
          obtain ⟨resolved, opened, asked, known⟩ := resolves
          have unmasked : ¬masksBase overlay.entries dir = true := by
            rw [directory.masksBase_iff keyed component]
            exact (resolve_eq_base.mp resolved).2.2
          rw [visibleListing, if_neg unmasked, asked] at visible
          cases visible
          exact absurd ⟨entry, (Listing.get_eq_some (lists dir listing asked).1).mp known⟩ named

theorem childrenOf_nodup (indexed : overlay.Indexed) (keyed : Keyed overlay.entries)
    (isDir : IsDirPath dir)
    : ((overlay.childrenOf dir).map OverlayEntry.name).Nodup := by
  have own
      : ∀ name ∈ (overlay.children[dir]?.getD ∅).toList,
          ∀ row, overlay.entries[dir.join name]? = some row → row.name = name := by
    intro name listed row found
    rw [ExtTreeSet.mem_toList, indexed dir] at listed
    obtain ⟨path, -, called, held⟩ := listed
    obtain ⟨other, there⟩ := Option.isSome_iff_exists.mp held
    exact name_of_row keyed isDir (called ▸ (keyed path other there).2.split.2.1) found
  rw [List.Nodup, List.pairwise_map, Overlay.childrenOf, List.pairwise_filterMap]
  refine ExtTreeSet.distinct_toList.imp_of_mem ?_
  intro first second listed also apart row found row' found' same
  rw [own first listed row found, own second also row' found'] at same
  exact apart (Std.LawfulEqCmp.compare_eq_iff_eq.mpr same)

/-- A listing holds each name once. Witness: the base names each of its entries once, the index
of children is a set, and an extra child has a name that the base did not list.
-/
theorem fillDirectory_nodup (lists : source.ListsTrees) (indexed : overlay.Indexed)
    (keyed : Keyed overlay.entries) (directory : IsDirectory source overlay dir)
    (filled : fillDirectory source overlay dir = .ok children)
    : (children.map Child.name).Nodup := by
  have isDir := directory.isDirPath
  obtain ⟨listing, visible, rfl⟩ := fillDirectory_eq_ok.mp filled
  obtain ⟨distinct, components⟩ := isTree_of_visible lists visible
  have named
      : ∀ entry ∈ listing, ∀ child ∈ baseShown overlay dir entry, child.name = entry.name := by
    intro entry member child shown
    rw [Option.mem_def, baseShown_eq_some lists visible member] at shown
    exact shown.name_eq lists keyed isDir (components entry member)
  rw [List.map_append, List.nodup_append]
  refine ⟨?_, ?_, ?_⟩
  · rw [List.Nodup, List.pairwise_map] at distinct
    rw [List.Nodup, List.pairwise_map, List.pairwise_filterMap]
    refine distinct.imp_of_mem ?_
    intro first second listed also apart child shown child' shown'
    rw [named first listed child shown, named second also child' shown']
    exact apart
  · rw [List.map_map]
    exact ((childrenOf_nodup indexed keyed isDir).sublist
      (List.Sublist.map _ List.filter_sublist))
  · intro name fromBase other extra same
    subst same
    obtain ⟨child, listed, rfl⟩ := List.mem_map.mp extra
    obtain ⟨row, added, rfl⟩ := List.mem_map.mp listed
    obtain ⟨name, -, -, same, -, unnamed⟩ := (mem_extraChildren indexed keyed isDir).mp added
    obtain ⟨child, member, called⟩ := List.mem_map.mp fromBase
    rw [Child.name, same] at called
    obtain ⟨entry, inTree, shows⟩ := List.mem_filterMap.mp member
    refine unnamed (List.mem_map.mpr ⟨entry, inTree, ?_⟩)
    rw [← named entry inTree child shows, called]

theorem eq_nil_iff_not_resolves (lists : source.ListsTrees) (indexed : overlay.Indexed)
    (keyed : Keyed overlay.entries) (directory : IsDirectory source overlay dir)
    (filled : fillDirectory source overlay dir = .ok children)
    : children = []
      ↔ ∀ child, IsComponent child.name → ¬ResolvesTo source overlay dir child.name child := by
  rw [List.eq_nil_iff_forall_not_mem]
  refine forall_congr' fun child => ?_
  rw [mem_fillDirectory lists indexed keyed directory filled, not_and]

section Emptiness

variable (indexed : overlay.Indexed) (keyed : Keyed overlay.entries)
  (directory : IsDirectory source overlay dir)

include keyed directory in
theorem resolvesTo_row {name : Bytes} (component : IsComponent name) {row : OverlayEntry}
    (found : overlay.entries[dir.join name]? = some row) (present : row.present = true)
    : IsComponent row.name ∧ ResolvesTo source overlay dir row.name (.overlay row) := by
  rw [name_of_row keyed directory.isDirPath component found]
  exact ⟨component, directory.resolve_row keyed component found present⟩

variable (lists : source.ListsTrees) {listing : Listing}
  (visible : visibleListing source overlay dir = .ok listing)

include indexed keyed directory lists visible

/-- Below a directory that is found empty nothing resolves. -/
theorem not_resolves_of_mergedDirIsEmpty
    (empty : overlay.mergedDirIsEmpty dir (listing.map TreeEntryInfo.name) = true) (child : Child)
    (component : IsComponent child.name)
    : ¬ResolvesTo source overlay dir child.name child := by
  intro resolves
  rw [Overlay.mergedDirIsEmpty] at empty
  cases child with
  | overlay row =>
      obtain ⟨-, own, present⟩ := resolve_eq_overlay.mp resolves
      have held := (hasChild_iff indexed keyed directory.isDirPath).mpr
        ⟨_, row, component, own, present⟩
      rw [if_pos held] at empty
      cases empty
  | base entry =>
      obtain ⟨resolved, opened, asked, known⟩ := resolves
      obtain ⟨-, missing, shown⟩ := resolve_eq_base.mp resolved
      obtain ⟨member, called⟩ := (Listing.get_eq_some (lists dir opened asked).1).mp known
      have unmasked : ¬masksBase overlay.entries dir = true := by
        rw [directory.masksBase_iff keyed component]
        exact shown
      rw [visibleListing, if_neg unmasked, asked] at visible
      cases visible
      rw [if_neg unmasked] at empty
      split at empty
      · cases empty
      · have hidden := List.all_eq_true.mp empty _ (List.mem_map.mpr ⟨entry, member, called⟩)
        rw [missing] at hidden
        cases hidden

/-- A directory with nothing below it that resolves is found empty. -/
theorem mergedDirIsEmpty_of_not_resolves
    (bare : ∀ child, IsComponent child.name → ¬ResolvesTo source overlay dir child.name child)
    : overlay.mergedDirIsEmpty dir (listing.map TreeEntryInfo.name) = true := by
  rw [Overlay.mergedDirIsEmpty, if_neg]
  · split
    · rfl
    · rename_i unmasked
      refine List.all_eq_true.mpr fun name listed => ?_
      obtain ⟨entry, member, rfl⟩ := List.mem_map.mp listed
      have component := (isTree_of_visible lists visible).2 entry member
      cases found : overlay.entries[dir.join entry.name]? with
      | none =>
          rw [directory.masksBase_iff keyed component] at unmasked
          have resolved := resolve_eq_base.mpr
            ⟨directory.not_blocked keyed component, found, unmasked⟩
          obtain ⟨-, opened⟩ := visible_mem visible member
          have known := (Listing.get_eq_some (lists dir listing opened).1).mpr ⟨member, rfl⟩
          exact absurd ⟨resolved, listing, opened, known⟩ (bare (.base entry) component)
      | some row =>
          cases present : row.present with
          | false => simp [present]
          | true =>
              obtain ⟨own, resolves⟩ := resolvesTo_row keyed directory component found present
              exact absurd resolves (bare (.overlay row) own)
  · rw [hasChild_iff indexed keyed directory.isDirPath]
    rintro ⟨name, row, component, found, present⟩
    obtain ⟨own, resolves⟩ := resolvesTo_row keyed directory component found present
    exact bare (.overlay row) own resolves

end Emptiness

theorem mergedDirIsEmpty_eq (lists : source.ListsTrees) (indexed : overlay.Indexed)
    (keyed : Keyed overlay.entries) (directory : IsDirectory source overlay dir)
    (filled : fillDirectory source overlay dir = .ok children)
    : mergedDirIsEmpty source overlay dir = .ok (decide (children = [])) := by
  obtain ⟨listing, visible, -⟩ := fillDirectory_eq_ok.mp filled
  rw [mergedDirIsEmpty, baseChildNames, visible]
  refine congrArg Except.ok (Bool.eq_iff_iff.mpr ?_)
  rw [decide_eq_true_iff, eq_nil_iff_not_resolves lists indexed keyed directory filled]
  exact ⟨not_resolves_of_mergedDirIsEmpty indexed keyed directory lists visible,
    mergedDirIsEmpty_of_not_resolves indexed keyed directory lists visible⟩

theorem fillDirectory_eq_error {refusal : GfsError}
    : fillDirectory source overlay dir = .error refusal
      ↔ mergedDirIsEmpty source overlay dir = .error refusal := by
  rw [fillDirectory, mergedDirIsEmpty, baseChildNames]
  cases visibleListing source overlay dir with
  | error other =>
      constructor
      · intro fails
        cases fails
        rfl
      · intro fails
        cases fails
        rfl
  | ok listing =>
      constructor
      · intro fails
        cases fails
      · intro fails
        cases fails

/-- What a lookup does before it answers with a child: the path of a base entry is validated. -/
def Child.accepted (dir : BytePath) : Child → Except GfsError Unit
  | .base entry => validated (dir.join entry.name)
  | .overlay _ => .ok ()

theorem lookupChild_of_resolvesTo (lists : source.ListsTrees) (keyed : Keyed overlay.entries)
    (isDir : IsDirPath dir) {name : Bytes} (component : IsComponent name) {child : Child}
    (resolves : ResolvesTo source overlay dir name child)
    : lookupChild source overlay dir name = (child.accepted dir).map (fun _ => some child) := by
  have called := resolves.name_eq lists keyed isDir component
  rw [lookupChild, resolvePath]
  cases child with
  | overlay row =>
      rw [show resolve overlay.entries (dir.join name) = .overlay row from resolves]
      rfl
  | base entry =>
      obtain ⟨resolved, listing, opened, known⟩ := resolves
      rw [resolved, baseNode_join isDir component, Child.accepted,
        show entry.name = name from called]
      simp only [bind, Except.bind, opened, known]
      cases validated (dir.join name) with
      | error refusal => rfl
      | ok accepted => rfl

/-- What a lookup finds is what the name resolves to. -/
theorem resolvesTo_of_lookupChild (isDir : IsDirPath dir) {name : Bytes}
    (component : IsComponent name) {child : Child}
    (found : lookupChild source overlay dir name = .ok (some child))
    : ResolvesTo source overlay dir name child := by
  rw [lookupChild, resolvePath] at found
  cases resolved : resolve overlay.entries (dir.join name) with
  | absent =>
      rw [resolved] at found
      cases found
  | overlay row =>
      rw [resolved] at found
      cases found
      exact resolved
  | base =>
      rw [resolved, baseNode_join isDir component] at found
      cases accepted : validated (dir.join name) with
      | error refusal =>
          rw [accepted] at found
          cases found
      | ok done =>
          cases opened : source.baseListing dir with
          | error refusal =>
              rw [accepted, opened] at found
              cases found
          | ok listing =>
              rw [accepted, opened] at found
              obtain ⟨entry, known, same⟩ := Option.map_eq_some_iff.mp (Except.ok.inj found)
              cases same
              exact ⟨resolved, listing, opened, known⟩

/-- In every state of a run over an opened overlay, whatever the base lists, the listing of a
directory of the merged view holds each name once, holds a name exactly where it resolves to a row
or to an entry of the base, and is empty exactly where the directory is answered to be; a lookup
finds every child of it, as soon as it accepts the path, and finds nothing else. Witness: the rows
of every state are keyed by their paths and indexed by their directories.
-/
theorem run_listing_agrees (digests : Digests) (base : BaseTree) (config : OverlayConfig)
    (snapshotTime : Timestamp) (requests : List Request) (source : SnapshotSource)
    (lists : source.ListsTrees)
    : ∀ overlay ∈ runStates digests base (Overlay.opened config snapshotTime) requests,
        ∀ dir,
          IsDirectory source overlay dir
          → (∀ children,
              fillDirectory source overlay dir = .ok children
              → (children.map Child.name).Nodup
                ∧ (∀ name,
                    IsComponent name
                    → (name ∈ children.map Child.name
                      ↔ ∃ child, ResolvesTo source overlay dir name child))
                ∧ (∀ child ∈ children,
                    ResolvesTo source overlay dir child.name child
                    ∧ lookupChild source overlay dir child.name
                      = (child.accepted dir).map (fun _ => some child))
                ∧ (∀ name child,
                    IsComponent name
                    → lookupChild source overlay dir name = .ok (some child)
                    → child ∈ children ∧ child.name = name)
                ∧ mergedDirIsEmpty source overlay dir = .ok (decide (children = [])))
            ∧ ∀ refusal,
                fillDirectory source overlay dir = .error refusal
                ↔ mergedDirIsEmpty source overlay dir = .error refusal := by
  intro overlay reached dir directory
  have safely
      : Safely digests base (fun _ _ => True) (Overlay.opened config snapshotTime) requests :=
    Lib.Runs.Along.of_mem (fun _ _ _ => trivial) _
  have always : (fun _ => True) (Overlay.opened config snapshotTime).core := trivial
  obtain ⟨sound, indexed, -⟩ :=
    safely.invariant (fun _ => trivial) (fun _ _ _ _ _ _ _ => trivial)
      (.opened config snapshotTime) (.opened config snapshotTime) always overlay reached
  have keyed := sound.keyed
  have isDir := directory.isDirPath
  refine ⟨fun children filled => ?_, fun refusal => fillDirectory_eq_error⟩
  have holds := @mem_fillDirectory source overlay dir lists indexed keyed directory children filled
  have listed_iff
      : ∀ name child,
          IsComponent name
          → (ResolvesTo source overlay dir name child ↔ child ∈ children ∧ child.name = name) := by
    intro name child component
    constructor
    · intro resolves
      have called := resolves.name_eq lists keyed isDir component
      refine ⟨holds.mpr ?_, called⟩
      rw [called]
      exact ⟨component, resolves⟩
    · rintro ⟨listed, rfl⟩
      exact (holds.mp listed).2
  refine ⟨fillDirectory_nodup lists indexed keyed directory filled, ?_, ?_, ?_,
    mergedDirIsEmpty_eq lists indexed keyed directory filled⟩
  · intro name component
    rw [List.mem_map]
    exact exists_congr fun child => (listed_iff name child component).symm
  · intro child listed
    obtain ⟨component, resolves⟩ := holds.mp listed
    exact ⟨resolves, lookupChild_of_resolvesTo lists keyed isDir component resolves⟩
  · intro name child component found
    exact (listed_iff name child component).mp (resolvesTo_of_lookupChild isDir component found)

/-- A base with a directory and a file in it. -/
def sampleSource : SnapshotSource where
  baseEntry _ := .ok none
  baseListing dir :=
    if dir = [] then
      .ok
        [{
          path := [100], kind := .directory, mode := 0o40000, oid := ⟨.sha1, []⟩, size := 0,
          symlinkTarget := none
        }]
    else if dir = [100] then
      .ok
        [{
          path := [100, 47, 102], kind := .regular, mode := 0o100644, oid := ⟨.sha1, []⟩,
          size := 6, symlinkTarget := none
        }]
    else .ok []

theorem sampleSource_listsTrees : sampleSource.ListsTrees := by
  intro dir listing opened
  simp only [sampleSource] at opened
  split_ifs at opened
  · cases opened
    unfold Listing.IsTree IsComponent
    decide
  · cases opened
    unfold Listing.IsTree IsComponent
    decide
  · cases opened
    exact ⟨.nil, fun _ member => nomatch member⟩

/-- The base's directory renamed: the root of either state is listed as it is looked up. -/
theorem sample_listing
    : sampleSource.ListsTrees
      ∧ ∀ overlay ∈ runStates sampleDigests sampleBase (Overlay.opened sampleConfig ⟨0, 0⟩)
            [(Call.rename [100] [101] false).plain],
          ∀ children,
            fillDirectory sampleSource overlay [] = .ok children
            → (children.map Child.name).Nodup
              ∧ (∀ child ∈ children,
                  lookupChild sampleSource overlay [] child.name
                    = (child.accepted []).map (fun _ => some child))
              ∧ mergedDirIsEmpty sampleSource overlay [] = .ok (decide (children = [])) := by
  refine ⟨sampleSource_listsTrees, fun overlay reached children filled => ?_⟩
  obtain ⟨agrees, -⟩ :=
    run_listing_agrees sampleDigests sampleBase sampleConfig ⟨0, 0⟩
      [(Call.rename [100] [101] false).plain] sampleSource sampleSource_listsTrees overlay reached
      [] (.inl rfl)
  obtain ⟨distinct, -, looked, -, empty⟩ := agrees children filled
  exact ⟨distinct, fun child listed => (looked child listed).2, empty⟩

/-- `d/d/…/d`, a number of directories deep. -/
def chainDir : Nat → BytePath
  | 0 => []
  | depth + 1 => (chainDir depth).join [100]

theorem chainDir_isDirPath (depth : Nat) : IsDirPath (chainDir depth) := by
  induction depth with
  | zero => exact .inl rfl
  | succ depth ih => exact .inr (ih.wellFormed_join (by unfold IsComponent; decide))

/-- An entry of the chain. -/
def chainEntry (dir : BytePath) (name : Bytes) (kind : EntryKind) (mode : Nat) : TreeEntryInfo where
  path := dir.join name
  kind
  mode
  oid := ⟨.sha1, []⟩
  size := 0
  symlinkTarget := none

/-- A chain of 256 directories with a file at its end. -/
def chainSource : SnapshotSource where
  baseEntry _ := .ok none
  baseListing dir :=
    if dir = chainDir 256 then .ok [chainEntry dir [102] .regular 0o100644]
    else if dir.length < 511 ∧ dir = chainDir ((dir.length + 1) / 2) then
      .ok [chainEntry dir [100] .directory 0o40000]
    else .ok []

theorem chainSource_listsTrees : chainSource.ListsTrees := by
  have single
      : ∀ depth name kind mode,
          IsComponent name → Listing.IsTree [chainEntry (chainDir depth) name kind mode] := by
    intro depth name kind mode component
    have named : (chainEntry (chainDir depth) name kind mode).name = name :=
      ((chainDir_isDirPath depth).split_join component).2
    refine ⟨List.nodup_singleton _, fun entry member => ?_⟩
    cases List.mem_singleton.mp member
    rw [named]
    exact component
  intro dir listing opened
  simp only [chainSource] at opened
  split_ifs at opened with deepest inner
  · cases opened
    rw [deepest]
    exact single 256 [102] _ _ (by unfold IsComponent; decide)
  · cases opened
    rw [inner.2]
    exact single _ [100] _ _ (by unfold IsComponent; decide)
  · cases opened
    exact ⟨.nil, fun _ member => nomatch member⟩

private theorem fillDirectory_opened {config : OverlayConfig} {snapshotTime : Timestamp}
    (untouched
      : resolve (Overlay.opened config snapshotTime).entries (dir.join entry.name) = .base)
    (visible : visibleListing source (Overlay.opened config snapshotTime) dir = .ok [entry])
    : fillDirectory source (Overlay.opened config snapshotTime) dir = .ok [.base entry] := by
  have shown : baseShown (Overlay.opened config snapshotTime) dir entry = some (.base entry) := by
    rw [baseShown, untouched]
  have extra
      : (Overlay.opened config snapshotTime).extraChildren dir [entry.name] = [] := by
    simp [Overlay.extraChildren, Overlay.childrenOf, Overlay.opened]
  rw [fillDirectory, visible]
  simp only [bind, Except.bind, List.filterMap_cons, shown, List.filterMap_nil, List.map_cons,
    List.map_nil, extra]
  rfl

/-- The file at the end of the chain is listed, and its lookup is refused. -/
theorem chain_end_listed_not_found
    : chainSource.ListsTrees
      ∧ ∃ overlay ∈ runStates sampleDigests sampleBase (Overlay.opened sampleConfig ⟨0, 0⟩) [],
          IsDirectory chainSource overlay (chainDir 256)
          ∧ fillDirectory chainSource overlay (chainDir 256)
            = .ok [.base (chainEntry (chainDir 256) [102] .regular 0o100644)]
          ∧ lookupChild chainSource overlay (chainDir 256) [102]
            = .error (.invalid "path exceeds 256 components") := by
  have accepted : validated (chainDir 256) = .ok () := by decide +kernel
  have refused
      : validated ((chainDir 256).join [102])
        = .error (.invalid "path exceeds 256 components") := by
    decide +kernel
  have above
      : chainSource.baseListing (chainDir 255)
        = .ok [chainEntry (chainDir 255) [100] .directory 0o40000] := by
    decide +kernel
  have untouched
      : ∀ path, resolve (Overlay.opened sampleConfig ⟨0, 0⟩).entries path = .base := by
    intro path
    have empty : ∀ above : BytePath, (∅ : Rows)[above]? = none :=
      fun _ => ExtTreeMap.getElem?_empty
    refine resolve_eq_base.mpr ⟨?_, empty path, ?_⟩
    · rintro ⟨above, -, entry, found, -⟩
      cases (empty above).symm.trans found
    · rintro ⟨above, -, entry, found, -⟩
      cases (empty above).symm.trans found
  have file : IsComponent ([102] : Bytes) := by
    unfold IsComponent
    decide
  have shown
      : ¬masksBase (Overlay.opened sampleConfig ⟨0, 0⟩).entries (chainDir 256) = true := by
    obtain ⟨clear, -, bare⟩ := resolve_eq_base.mp (untouched ((chainDir 256).join [102]))
    rw [Overlay.masksBase_iff (chainDir_isDirPath 256) file]
    exact not_or.mpr ⟨clear, bare⟩
  refine ⟨chainSource_listsTrees, _, List.mem_singleton.mpr rfl, ?_, ?_, ?_⟩
  · refine .inr
      ⟨?_, .inr ⟨untouched _, chainEntry (chainDir 255) [100] .directory 0o40000, ?_, rfl⟩⟩
    · exact (chainDir_isDirPath 256).resolve_left (by decide +kernel)
    · have known
          : Listing.get [chainEntry (chainDir 255) [100] .directory 0o40000] [100]
            = some (chainEntry (chainDir 255) [100] .directory 0o40000) := by
        decide +kernel
      rw [chainDir, baseNode_join (chainDir_isDirPath 255) (by unfold IsComponent; decide), above]
      simp only [bind, Except.bind, known]
      rw [show validated ((chainDir 255).join [100]) = .ok () from accepted]
      rfl
  · have opened
        : chainSource.baseListing (chainDir 256)
          = .ok [chainEntry (chainDir 256) [102] .regular 0o100644] := by
      dsimp only [chainSource]
      rw [if_pos rfl]
    have visible
        : visibleListing chainSource (Overlay.opened sampleConfig ⟨0, 0⟩) (chainDir 256)
          = .ok [chainEntry (chainDir 256) [102] .regular 0o100644] := by
      rw [visibleListing, if_neg shown, opened]
    exact fillDirectory_opened (untouched _) visible
  · rw [lookupChild, resolvePath, untouched, baseNode_join (chainDir_isDirPath 256) file, refused]
    rfl

end Listings

end Gfs.Mount
