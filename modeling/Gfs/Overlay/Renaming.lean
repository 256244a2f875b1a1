import Gfs.Overlay.Removal

/-! A rename's transaction: the rows it leaves are those of `Relocates`.
-/

namespace Gfs.Overlay

open Gfs.Types
open Gfs.Lib.Overwrites
open Std (ExtTreeMap ExtTreeSet)

variable {digests : Digests} {base : BaseTree}

-- The transaction's writes

variable {source path : BytePath}

/-- The writes of the rows that move with their directory: each leaves its place and appears
at the same place below the destination.
-/
theorem mem_moverWrites {rows : Rows} (keyed : Keyed rows) (nonroot : source ≠ [])
    (target : BytePath) (now : Timestamp) {value : Option OverlayEntry}
    : (path, value)
          ∈ (Overlay.moverChanges source target now (rowsUnder rows source)).map Change.write
      ↔ ∃ (rel : BytePath) (old : OverlayEntry),
          rows[source ++ slash :: rel]? = some old
          ∧ old.present = true
          ∧ ((path = source ++ slash :: rel ∧ value = none)
              ∨ (path = target ++ slash :: rel
                  ∧ value = some (Overlay.moverEntry source target now old))) := by
  simp only [Overlay.moverChanges, List.map_flatMap, List.mem_flatMap, mem_rowsUnder nonroot]
  constructor
  · intro listed
    obtain ⟨old, ⟨rel, found⟩, member⟩ := listed
    have own := (keyed _ old found).1
    cases present : old.present with
    | false => simp [present] at member
    | true =>
        refine ⟨rel, old, found, present, ?_⟩
        simp only [present, ↓reduceIte, List.map_cons, Change.write, List.map_nil,
          List.mem_cons, Prod.mk.injEq, List.not_mem_nil, or_false] at member
        rcases member with ⟨here, value⟩ | ⟨there, value⟩
        · exact Or.inl ⟨here.trans own, value⟩
        · refine Or.inr ⟨?_, value⟩
          rw [there]
          simp [Overlay.moverEntry, own]
  · intro moved
    obtain ⟨rel, old, found, present, place⟩ := moved
    have own := (keyed _ old found).1
    refine ⟨old, ⟨rel, found⟩, ?_⟩
    simp only [present, ↓reduceIte, List.map_cons, Change.write, List.map_nil,
      List.mem_cons, Prod.mk.injEq, List.not_mem_nil, or_false]
    rcases place with ⟨here, value⟩ | ⟨there, value⟩
    · exact Or.inl ⟨here.trans own.symm, value⟩
    · refine Or.inr ⟨?_, value⟩
      rw [there]
      simp [Overlay.moverEntry, own]

/-- The writes of the base descendants a directory's rename makes rows for. -/
theorem mem_descendantWrites {rows : Rows} {target : BytePath} {now : Timestamp}
    {descendants : List BaseDescendant} {nextIno : Nat} {value : Option OverlayEntry}
    : (path, value)
          ∈ (Overlay.descendantChanges rows source target now nextIno descendants).1.map
              Change.write
      → ∃ descendant ∈ descendants, ∃ kind ino,
          resolve rows (source ++ slash :: descendant.relative) = .base
          ∧ OverlayKind.fromEntryKind descendant.facts.kind = some kind
          ∧ path = target ++ slash :: descendant.relative
          ∧ value
            = some (Overlay.descendantEntry source target now ino kind descendant) := by
  induction descendants generalizing nextIno with
  | nil => simp [Overlay.descendantChanges]
  | cons descendant rest ih =>
      intro member
      have later : (path, value)
            ∈ (Overlay.descendantChanges rows source target now nextIno rest).1.map
                Change.write
          ∨ (path, value)
            ∈ (Overlay.descendantChanges rows source target now (nextIno + 1) rest).1.map
                Change.write
          → ∃ other ∈ descendant :: rest, ∃ kind ino,
              resolve rows (source ++ slash :: other.relative) = .base
              ∧ OverlayKind.fromEntryKind other.facts.kind = some kind
              ∧ path = target ++ slash :: other.relative
              ∧ value = some (Overlay.descendantEntry source target now ino kind other) := by
        intro either
        rcases either with member | member
        · obtain ⟨other, inside, rest⟩ := ih member
          exact ⟨other, List.mem_cons_of_mem _ inside, rest⟩
        · obtain ⟨other, inside, rest⟩ := ih member
          exact ⟨other, List.mem_cons_of_mem _ inside, rest⟩
      unfold Overlay.descendantChanges at member
      split at member
      · exact later (Or.inl member)
      · rename_i resolved
        cases kinds : OverlayKind.fromEntryKind descendant.facts.kind with
        | none =>
            simp only [kinds] at member
            exact later (Or.inl member)
        | some kind =>
            simp only [kinds, List.map_cons, List.mem_cons] at member
            rcases member with same | member
            · simp only [Change.write, Prod.mk.injEq] at same
              exact ⟨descendant, by simp, kind, nextIno, by simpa using resolved, kinds,
                same.1, same.2⟩
            · exact later (Or.inr member)

/-- Every base descendant that shows and has a kind gets a write. -/
theorem exists_descendantWrite {rows : Rows} (target : BytePath) (now : Timestamp) (nextIno : Nat)
    {descendants : List BaseDescendant} {descendant : BaseDescendant} {kind : OverlayKind}
    (inside : descendant ∈ descendants)
    (resolved : resolve rows (source ++ slash :: descendant.relative) = .base)
    (kinds : OverlayKind.fromEntryKind descendant.facts.kind = some kind)
    : ∃ value,
        (target ++ slash :: descendant.relative, value)
          ∈ (Overlay.descendantChanges rows source target now nextIno descendants).1.map
              Change.write := by
  induction descendants generalizing nextIno with
  | nil => cases inside
  | cons first rest ih =>
      rcases List.mem_cons.mp inside with rfl | later
      · unfold Overlay.descendantChanges
        rw [if_neg (by simpa using resolved)]
        simp only [kinds]
        exact ⟨_, List.mem_map.mpr ⟨_, List.mem_cons_self, rfl⟩⟩
      · unfold Overlay.descendantChanges
        split
        · exact ih nextIno later
        · split
          · exact ih nextIno later
          · obtain ⟨value, member⟩ := ih (nextIno + 1) later
            exact ⟨value, by simp [member]⟩

/-- The base's descendants of a directory are its nodes below it. -/
theorem BaseTree.mem_descendants {descendant : BaseDescendant}
    : descendant ∈ base.descendants digests source
      ↔ ∃ node,
          base.get (source ++ slash :: descendant.relative) = some node
          ∧ descendant.facts = BaseTree.factsOfNode digests node
          ∧ descendant.symlinkTarget
            = (if node.kind = .symlink then some node.content else none) := by
  simp only [BaseTree.descendants, List.mem_map, List.mem_filter,
    List.isPrefixOf_iff_prefix, Prod.exists, ExtTreeMap.mem_toList_iff_getElem?_eq_some]
  constructor
  · intro listed
    obtain ⟨path, node, ⟨found, rest, rfl⟩, rfl⟩ := listed
    refine ⟨node, ?_, rfl, rfl⟩
    simpa [BaseTree.get] using found
  · intro there
    obtain ⟨node, got, facts, target⟩ := there
    refine ⟨source ++ slash :: descendant.relative, node, ⟨?_, descendant.relative, ?_⟩, ?_⟩
    · simpa [BaseTree.get] using got
    · simp
    · cases descendant
      simp_all

-- The rows it leaves

section Transaction

variable {core : Core} {source target : BytePath} {now : Timestamp} {moved : OverlayEntry}
  {nextIno : Nat}

/-- The rename's changes: the destination cleared, the renamed row, the rows and the base
nodes that move with it, and what is left at the source.
-/
def renameChanges (digests : Digests) (base : BaseTree) (rows : Rows)
    (source target : BytePath) (now : Timestamp) (moved : OverlayEntry) (nextIno : Nat)
    : List Change :=
  (rowsUnder rows target).map (fun victim => Change.delete victim.path)
  ++ [.put moved]
  ++ Overlay.moverChanges source target now (rowsUnder rows source)
  ++ (Overlay.descendantChanges rows source target now nextIno
      (base.descendants digests source)).1
  ++ [Overlay.departure rows[source]? source (base.facts digests source) now]

-- What each part of the transaction writes last, region by region.

variable {rows : Rows} {path : BytePath}

private theorem lastWrite_cleared (keyed : Keyed rows) (nonroot : target ≠ [])
    {value : Option OverlayEntry}
    (last
      : lastWrite path
          (((rowsUnder rows target).map (fun victim => Change.delete victim.path)).map
            Change.write) = some value)
    : value = none ∧ ∃ rel, path = target ++ slash :: rel := by
  have member := mem_of_lastWrite last
  simp only [List.map_map, List.mem_map, Function.comp, Change.write, Prod.mk.injEq,
    mem_rowsUnder nonroot] at member
  obtain ⟨victim, ⟨rel, found⟩, here, gone⟩ := member
  exact ⟨gone.symm, rel, by rw [← here, (keyed _ victim found).1]⟩

private theorem cleared_elsewhere (keyed : Keyed rows) (nonroot : target ≠ [])
    (apart : ∀ rel, path ≠ target ++ slash :: rel)
    : lastWrite path
        (((rowsUnder rows target).map (fun victim => Change.delete victim.path)).map
          Change.write) = none := by
  cases last : lastWrite path _ with
  | none => rfl
  | some value =>
      obtain ⟨-, rel, same⟩ := lastWrite_cleared keyed nonroot last
      exact absurd same (apart rel)

private theorem cleared_below (keyed : Keyed rows) (nonroot : target ≠ []) (rel : BytePath)
    : (lastWrite (target ++ slash :: rel)
        (((rowsUnder rows target).map (fun victim => Change.delete victim.path)).map
          Change.write)).getD rows[target ++ slash :: rel]? = none := by
  cases last : lastWrite (target ++ slash :: rel) _ with
  | some value =>
      rw [(lastWrite_cleared keyed nonroot last).1]
      rfl
  | none =>
      cases found : rows[target ++ slash :: rel]? with
      | none => rfl
      | some victim =>
          have member : (target ++ slash :: rel, none)
              ∈ ((rowsUnder rows target).map
                  (fun victim => Change.delete victim.path)).map Change.write := by
            simp only [List.map_map, List.mem_map, Function.comp, Change.write,
              Prod.mk.injEq, and_true]
            exact ⟨victim, (mem_rowsUnder nonroot).mpr ⟨rel, found⟩,
              (keyed _ victim found).1⟩
          obtain ⟨value, written⟩ := exists_lastWrite member
          rw [last] at written
          cases written

private theorem movers_elsewhere (keyed : Keyed rows) (nonroot : source ≠ [])
    (apart : ∀ rel, path ≠ target ++ slash :: rel) (beyond : ∀ rel, path ≠ source ++ slash :: rel)
    : lastWrite path
        ((Overlay.moverChanges source target now (rowsUnder rows source)).map
          Change.write) = none := by
  cases last : lastWrite path _ with
  | none => rfl
  | some value =>
      obtain ⟨rel, row, -, -, ⟨same, -⟩ | ⟨same, -⟩⟩ :=
        (mem_moverWrites keyed nonroot target now).mp (mem_of_lastWrite last)
      · exact absurd same (beyond rel)
      · exact absurd same (apart rel)

/-- Below the source the rows that were there leave, and the whiteouts stay. -/
private theorem movers_below_source (keyed : Keyed rows) (nonroot : source ≠ []) {rel : BytePath}
    (apart : ∀ other, source ++ slash :: rel ≠ target ++ slash :: other)
    : (lastWrite (source ++ slash :: rel)
        ((Overlay.moverChanges source target now (rowsUnder rows source)).map
          Change.write)).getD rows[source ++ slash :: rel]?
      = rows[source ++ slash :: rel]?.filter (fun entry => !entry.present) := by
  cases moving : lastWrite (source ++ slash :: rel)
      ((Overlay.moverChanges source target now (rowsUnder rows source)).map
        Change.write) with
  | some value =>
      obtain ⟨other, row, found, present, ⟨same, rfl⟩ | ⟨same, -⟩⟩ :=
        (mem_moverWrites keyed nonroot target now).mp (mem_of_lastWrite moving)
      · obtain rfl : rel = other := by simpa using same
        rw [found, Option.filter_some, if_neg (by simp [present])]
        rfl
      · exact absurd same (apart other)
  | none =>
      cases found : rows[source ++ slash :: rel]? with
      | none => rfl
      | some row =>
          cases present : row.present with
          | false =>
              rw [Option.filter_some, if_pos (by simp [present])]
              rfl
          | true =>
              obtain ⟨last, written⟩ := exists_lastWrite
                ((mem_moverWrites keyed nonroot target now).mpr
                  ⟨rel, row, found, present, Or.inl ⟨rfl, rfl⟩⟩)
              rw [moving] at written
              cases written

private theorem arrivals_elsewhere (apart : ∀ rel, path ≠ target ++ slash :: rel)
    : lastWrite path
        ((Overlay.descendantChanges rows source target now nextIno
          (base.descendants digests source)).1.map Change.write) = none := by
  cases last : lastWrite path _ with
  | none => rfl
  | some value =>
      obtain ⟨descendant, -, kind, ino, -, -, same, -⟩ :=
        mem_descendantWrites (mem_of_lastWrite last)
      exact absurd same (apart _)

/-- Where neither a row nor a base node arrives, nothing showed. -/
private theorem vacant_of_unwritten (keyed : Keyed rows) (nonroot : source ≠ []) {rel : BytePath}
    (arrived
      : lastWrite (target ++ slash :: rel)
          ((Overlay.descendantChanges rows source target now nextIno
            (base.descendants digests source)).1.map Change.write) = none)
    (moving
      : lastWrite (target ++ slash :: rel)
          ((Overlay.moverChanges source target now (rowsUnder rows source)).map
            Change.write) = none)
    : kindAt base rows (source ++ slash :: rel) = none := by
  cases shows : kindAt base rows (source ++ slash :: rel) with
  | none => rfl
  | some kind =>
      exfalso
      rcases kindAt_eq_some.mp shows with ⟨row, resolved, -⟩ | ⟨resolved, node, listed, -⟩
      · obtain ⟨-, found, present⟩ := resolve_eq_overlay.mp resolved
        obtain ⟨last, written⟩ := exists_lastWrite
          ((mem_moverWrites keyed nonroot target now).mpr
            ⟨rel, row, found, present, Or.inr ⟨rfl, rfl⟩⟩)
        rw [moving] at written
        cases written
      · obtain ⟨raw, got, held⟩ := Option.bind_eq_some_iff.mp listed
        obtain ⟨kind, kinds, -⟩ := Option.map_eq_some_iff.mp held
        have inside
            : {
                relative := rel
                facts := BaseTree.factsOfNode digests raw
                symlinkTarget := if raw.kind = .symlink then some raw.content else none
              } ∈ base.descendants digests source :=
          BaseTree.mem_descendants.mpr ⟨raw, got, rfl, rfl⟩
        obtain ⟨value, member⟩ :=
          exists_descendantWrite target now nextIno inside resolved kinds
        obtain ⟨last, written⟩ := exists_lastWrite member
        rw [arrived] at written
        cases written

/-- What arrives below the destination. -/
private theorem arrives_below (keyed : Keyed rows) (sourceFormed : source ≠ [])
    (targetFormed : target ≠ []) {rel : BytePath}
    (apart : ∀ other, target ++ slash :: rel ≠ source ++ slash :: other)
    : Arrives digests base rows source target rel
        (((lastWrite (target ++ slash :: rel)
            ((Overlay.descendantChanges rows source target now nextIno
              (base.descendants digests source)).1.map Change.write)).or
          ((lastWrite (target ++ slash :: rel)
            ((Overlay.moverChanges source target now (rowsUnder rows source)).map
              Change.write)).or
          (lastWrite (target ++ slash :: rel)
            (((rowsUnder rows target).map (fun victim => Change.delete victim.path)).map
              Change.write)))).getD rows[target ++ slash :: rel]?) := by
  cases arrived : lastWrite (target ++ slash :: rel)
      ((Overlay.descendantChanges rows source target now nextIno
        (base.descendants digests source)).1.map Change.write) with
  | some value =>
      obtain ⟨descendant, inside, kind, ino, resolved, kinds, same, rfl⟩ :=
        mem_descendantWrites (mem_of_lastWrite arrived)
      obtain ⟨node, got, facts, link⟩ := BaseTree.mem_descendants.mp inside
      obtain rfl : rel = descendant.relative := by simpa using same
      have spelled : descendant
          = {
              relative := descendant.relative
              facts := BaseTree.factsOfNode digests node
              symlinkTarget := if node.kind = .symlink then some node.content else none
            } := by
        rw [← facts, ← link]
      rw [facts] at kinds
      have arrival := @Arrives.base digests base rows source target
        descendant.relative node kind ino now resolved got kinds
      rwa [← spelled] at arrival
  | none =>
      cases moving : lastWrite (target ++ slash :: rel)
          ((Overlay.moverChanges source target now (rowsUnder rows source)).map
            Change.write) with
      | some value =>
          obtain ⟨other, row, found, present, ⟨same, -⟩ | ⟨same, rfl⟩⟩ :=
            (mem_moverWrites keyed sourceFormed target now).mp (mem_of_lastWrite moving)
          · exact absurd same (apart other)
          · obtain rfl : rel = other := by simpa using same
            exact .row found present
      | none =>
          simp only [Option.none_or, cleared_below keyed targetFormed rel]
          exact .nothing (vacant_of_unwritten keyed sourceFormed arrived moving)

/-- The rows after the rename's changes, when its checks have passed. Each region of the paths
is written by one part of the transaction only.
-/
theorem relocates_of_changes (sound : Sound digests base core)
    (sourceFormed : WellFormed source) (targetFormed : WellFormed target)
    (outsideTarget : Outside source target) (outsideSource : Outside target source)
    (above : UnderDirectories base core.rows target)
    (bare : ∀ below, target ∈ ancestorsOf below → kindAt base core.rows below = none)
    {old : OverlayEntry} (standing : Standing digests base core.rows source old)
    (moves : Moves digests base source target old moved)
    : Relocates digests base core.rows source target
        (overwrite core.rows
          ((renameChanges digests base core.rows source target now moved nextIno).map
            Change.write)) := by
  obtain ⟨leftRow, leftWrite, left, -⟩ := departure_left sound source now
  have sourceBelow (rel : BytePath) : Outside target (source ++ slash :: rel) :=
    Relocates.below_outside rel outsideSource outsideTarget.2
  have targetBelow (rel : BytePath) : Outside source (target ++ slash :: rel) :=
    Relocates.below_outside rel outsideTarget outsideSource.2
  have strict (dir rel : BytePath) : dir ≠ dir ++ slash :: rel := by
    intro same
    have lengths := congrArg List.length same
    simp at lengths
  have notWithin {dir path : BytePath} (outside : Outside dir path) (rel : BytePath)
      : path ≠ dir ++ slash :: rel :=
    fun same => outside.2 (same ▸ mem_ancestorsOf_append _ _)
  have movedWrite : (Change.put moved).write = (target, some moved) := by
    rw [Change.write, moves.own]
  have written (path : BytePath)
      : (overwrite core.rows
          ((renameChanges digests base core.rows source target now moved nextIno).map
            Change.write))[path]?
        = (((if source = path then some leftRow else none).or
            ((lastWrite path
              ((Overlay.descendantChanges core.rows source target now nextIno
                (base.descendants digests source)).1.map Change.write)).or
            ((lastWrite path
              ((Overlay.moverChanges source target now (rowsUnder core.rows source)).map
                Change.write)).or
            ((if target = path then some (some moved) else none).or
            (lastWrite path
              (((rowsUnder core.rows target).map
                (fun victim => Change.delete victim.path)).map Change.write)))))).getD
            core.rows[path]?) := by
    rw [getElem?_overwrite]
    simp only [renameChanges, List.map_append, List.map_cons, List.map_nil, lastWrite_append,
      lastWrite_cons, lastWrite_nil, leftWrite, movedWrite, Option.none_or]
  refine ⟨sourceFormed, targetFormed, outsideTarget.1.symm, outsideTarget.2, outsideSource.2,
    above, bare, ⟨old, moved, standing, moves, ?_⟩, ?_, ?_, ?_, ?_⟩
  · rw [written, if_neg outsideSource.1, if_pos rfl, arrivals_elsewhere (strict target),
      movers_elsewhere sound.keyed sourceFormed.1 (strict target) (notWithin outsideTarget)]
    rfl
  · intro rel
    rw [written, if_neg (targetBelow rel).1.symm, if_neg (strict target rel)]
    exact arrives_below sound.keyed sourceFormed.1 targetFormed.1 (notWithin (targetBelow rel))
  · rw [written, if_pos rfl]
    exact left
  · intro rel
    rw [written, if_neg (strict source rel), if_neg (sourceBelow rel).1.symm,
      arrivals_elsewhere (notWithin (sourceBelow rel)),
      cleared_elsewhere sound.keyed targetFormed.1 (notWithin (sourceBelow rel))]
    simp only [Option.none_or, Option.or_none]
    exact movers_below_source sound.keyed sourceFormed.1 (notWithin (sourceBelow rel))
  · intro path awaySource awayTarget
    rw [isWithin_eq_false sourceFormed.1] at awaySource
    rw [isWithin_eq_false targetFormed.1] at awayTarget
    rw [written, if_neg awaySource.1.symm, if_neg awayTarget.1.symm,
      arrivals_elsewhere (notWithin awayTarget),
      movers_elsewhere sound.keyed sourceFormed.1 (notWithin awayTarget)
        (notWithin awaySource),
      cleared_elsewhere sound.keyed targetFormed.1 (notWithin awayTarget)]
    rfl

/-- Every row the rename puts has a well-formed path. -/
theorem renameChanges_formed (sound : Sound digests base core)
    (sourceFormed : WellFormed source) (targetFormed : WellFormed target)
    (own : moved.path = target)
    : ∀ change ∈ renameChanges digests base core.rows source target now moved nextIno,
        Change.Formed change := by
  have belowTarget {rel : BytePath} (formed : WellFormed (source ++ slash :: rel))
      : WellFormed (target ++ slash :: rel) :=
    wellFormed_append.mpr ⟨targetFormed, (wellFormed_append.mp formed).2⟩
  intro change member
  cases change with
  | delete path => trivial
  | put entry =>
      simp only [renameChanges, List.mem_append, List.mem_map, reduceCtorEq, and_false,
        exists_false, false_or, List.mem_singleton, Change.put.injEq] at member
      rcases member with ((same | moving) | arriving) | leaving
      · rw [same, Change.Formed, own]
        exact targetFormed
      · have written : (entry.path, some entry)
            ∈ (Overlay.moverChanges source target now (rowsUnder core.rows source)).map
                Change.write :=
          List.mem_map.mpr ⟨_, moving, rfl⟩
        obtain ⟨rel, old, found, -, ⟨-, absurd⟩ | ⟨same, -⟩⟩ :=
          (mem_moverWrites sound.keyed sourceFormed.1 target now).mp written
        · cases absurd
        · rw [Change.Formed, same]
          exact belowTarget (sound.keyed _ old found).2
      · have written : (entry.path, some entry)
            ∈ (Overlay.descendantChanges core.rows source target now nextIno
                (base.descendants digests source)).1.map Change.write :=
          List.mem_map.mpr ⟨_, arriving, rfl⟩
        obtain ⟨descendant, inside, -, -, -, -, same, -⟩ := mem_descendantWrites written
        obtain ⟨node, got, -, -⟩ := BaseTree.mem_descendants.mp inside
        rw [Change.Formed, same]
        simp only [BaseTree.get] at got
        rw [if_neg (by simp)] at got
        exact belowTarget (base.placed _ node got).1
      · obtain ⟨-, -, -, formed⟩ := departure_left sound source now
        rw [leaving]
        exact formed sourceFormed

end Transaction

-- Both parents

theorem pushTouch_writes (touch : ParentTouch) (changes : List Change)
    (rootTimes : Option (Timestamp × Timestamp)) (now : Timestamp)
    : (Overlay.pushTouch touch changes rootTimes now).1.map Change.write
      = changes.map Change.write ++ touch.writes := by
  cases touch <;> simp [Overlay.pushTouch, ParentTouch.writes, Change.write]

theorem pushTouch_formed {touch : ParentTouch} {changes : List Change}
    {rootTimes : Option (Timestamp × Timestamp)} {now : Timestamp}
    (formed : ∀ change ∈ changes, Change.Formed change)
    (touchFormed : ∀ entry, touch = .row entry → WellFormed entry.path)
    : ∀ change ∈ (Overlay.pushTouch touch changes rootTimes now).1, Change.Formed change := by
  intro change member
  cases touch with
  | root => exact formed change member
  | nothing => exact formed change member
  | row entry =>
      rcases List.mem_append.mp member with earlier | last
      · exact formed change earlier
      · rw [List.mem_singleton.mp last]
        exact touchFormed entry rfl

private theorem parentTouch_formed {overlay : Overlay} {parent : Parent} (now : Timestamp)
    (sound : Sound digests base overlay.core)
    (truthful : parent.base = base.facts digests (parentOf path))
    : ∀ entry, (overlay.parentTouch path parent now).1 = .row entry
        → WellFormed entry.path := by
  intro entry touched
  obtain ⟨-, revised⟩ := parentTouch_spec path now sound truthful
  obtain ⟨-, formed, -, -, own, -⟩ := revised entry touched
  exact own ▸ formed

private theorem resolve_after_touch {overlay : Overlay} {parent : Parent} (now : Timestamp)
    {rows : Rows} (other : BytePath) (sound : Sound digests base overlay.core)
    (truthful : parent.base = base.facts digests (parentOf path))
    (same : rows[parentOf path]? = overlay.entries[parentOf path]?)
    (alike : resolve rows (parentOf path) = resolve overlay.entries (parentOf path))
    (distinct : other ≠ parentOf path)
    : (overwrite rows (overlay.parentTouch path parent now).1.writes)[other]? = rows[other]?
      ∧ resolve (overwrite rows (overlay.parentTouch path parent now).1.writes) other
        = resolve rows other := by
  obtain ⟨-, revised⟩ := parentTouch_spec path now sound truthful
  cases touched : (overlay.parentTouch path parent now).1 with
  | root => exact ⟨rfl, rfl⟩
  | nothing => exact ⟨rfl, rfl⟩
  | row entry =>
      obtain ⟨old, -, standing, revises, own, -, -, dir⟩ := revised entry touched
      have rewritten : overwrite rows (ParentTouch.row entry).writes
          = rows.insert (parentOf path) entry := by
        simp [ParentTouch.writes, overwrite, own]
      rw [rewritten]
      refine ⟨getElem?_insert_other rows entry distinct, ?_⟩
      exact resolve_same_mark (fun _ apart => getElem?_insert_other rows entry apart)
        ((standing.transport same alike).markAt_insert revises dir) distinct

/-- A rename's commit is its changes, then each parent touched as it was. -/
theorem commitRename_spec {overlay : Overlay} {target : BytePath}
    {sourceParent targetParent : Parent} {changes : List Change} {release : List Nat}
    {now : Timestamp} {mid : Core} (sound : Sound digests base overlay.core)
    (truthfulSource : sourceParent.base = base.facts digests (parentOf source))
    (truthfulTarget : targetParent.base = base.facts digests (parentOf target))
    (committed
      : mid
        = {
            rows := overwrite overlay.entries (changes.map Change.write)
            files := release.foldl (·.erase ·) overlay.files
            next := overlay.nextContentId
          })
    (sameSource
      : ∀ dir, dir = parentOf source ∨ dir ∈ ancestorsOf (parentOf source)
          → mid.rows[dir]? = overlay.entries[dir]?)
    (sameTarget
      : ∀ dir, dir = parentOf target ∨ dir ∈ ancestorsOf (parentOf target)
          → mid.rows[dir]? = overlay.entries[dir]?)
    (formed : ∀ change ∈ changes, Change.Formed change)
    : ∃ between,
        Touches digests base mid between
        ∧ Touches digests base between
            (overlay.commitRename source target sourceParent targetParent changes release
              now).core
        ∧ (overlay.Indexed
            → (overlay.commitRename source target sourceParent targetParent changes release
                now).Indexed) := by
  subst committed
  obtain ⟨sameCore, -⟩ := parentTouch_spec source now sound truthfulSource
  obtain ⟨sameRows, sameChildren⟩ := parentTouch_fields overlay source sourceParent now
  have midSource := resolve_of_same sameSource
  have midTarget := resolve_of_same sameTarget
  have firstTouch := @touches_of_parentTouch digests base overlay source sourceParent now _
    sound truthfulSource midSource.1 midSource.2
  refine ⟨_, firstTouch, ?_⟩
  unfold Overlay.commitRename Overlay.transactionRename
  generalize touched : overlay.parentTouch source sourceParent now = first at *
  obtain ⟨touch, after⟩ := first
  simp only at sameCore sameRows sameChildren firstTouch
  have afterSound : Sound digests base after.core := sameCore ▸ sound
  have firstFormed : ∀ entry, touch = .row entry → WellFormed entry.path := by
    intro entry same
    refine parentTouch_formed now sound truthfulSource entry ?_
    rw [touched]
    exact same
  have files : after.files = overlay.files := congrArg Core.files sameCore
  have next : after.nextContentId = overlay.nextContentId := congrArg Core.next sameCore
  by_cases shared : parentOf source = parentOf target
  · simp only [shared, ↓reduceIte]
    refine ⟨Or.inl ?_, ?_⟩
    · simp [Overlay.core, pushTouch_writes, overwrite, sameRows, files, next]
    · intro tidy
      exact (Overlay.commitWith_indexed afterSound.keyed (tidy.congr sameRows sameChildren)
        (pushTouch_formed formed firstFormed)).2
  · simp only [shared, ↓reduceIte]
    have afterTouch := resolve_after_touch now (parentOf target) sound
      truthfulSource midSource.1 midSource.2 (Ne.symm shared)
    rw [touched] at afterTouch
    have secondTouch := @touches_of_parentTouch digests base after target targetParent now
      ⟨overwrite (overwrite overlay.entries (changes.map Change.write)) touch.writes,
        release.foldl (·.erase ·) overlay.files, overlay.nextContentId⟩ afterSound
      truthfulTarget (afterTouch.1.trans (midTarget.1.trans (by rw [sameRows])))
      (afterTouch.2.trans (midTarget.2.trans (by rw [sameRows])))
    obtain ⟨sameCore₂, -⟩ := parentTouch_spec target now afterSound truthfulTarget
    obtain ⟨sameRows₂, sameChildren₂⟩ := parentTouch_fields after target targetParent now
    have secondFormed := parentTouch_formed now afterSound truthfulTarget
    generalize after.parentTouch target targetParent now = second at *
    obtain ⟨touch₂, last⟩ := second
    simp only at sameCore₂ sameRows₂ sameChildren₂ secondTouch secondFormed
    have files₂ : last.files = overlay.files := (congrArg Core.files sameCore₂).trans files
    have next₂ : last.nextContentId = overlay.nextContentId :=
      (congrArg Core.next sameCore₂).trans next
    refine ⟨?_, ?_⟩
    · convert secondTouch using 1
      simp [Overlay.core, pushTouch_writes, overwrite, sameRows, sameRows₂, files₂, next₂]
    · intro tidy
      have keyed : Keyed last.entries := by
        rw [sameRows₂, sameRows]
        exact sound.keyed
      exact (Overlay.commitWith_indexed keyed
        ((tidy.congr sameRows sameChildren).congr sameRows₂ sameChildren₂)
        (pushTouch_formed (pushTouch_formed formed firstFormed) secondFormed)).2

-- The operation

/-- The renamed row, when something shows at the source. -/
theorem movedEntry_spec {overlay : Overlay} {source : BytePath} (target : BytePath)
    (now : Timestamp) (ino : Nat) {kind : OverlayKind}
    (shows : kindAt base overlay.entries source = some kind)
    : ∃ old moved after,
        Overlay.movedEntry overlay.entries[source]? source target
            (base.facts digests source) (base.facts digests target) now overlay ino
          = .ok (moved, after)
        ∧ Standing digests base overlay.entries source old
        ∧ Moves digests base source target old moved
        ∧ after.core = overlay.core
        ∧ after.children = overlay.children
        ∧ after.config = overlay.config := by
  unfold Overlay.movedEntry
  rcases kindAt_eq_some.mp shows with ⟨row, resolved, -⟩ | ⟨resolved, node, listed, -⟩
  · obtain ⟨-, found, present⟩ := resolve_eq_overlay.mp resolved
    rw [found, Option.filter_some, if_pos present]
    exact ⟨row, _, overlay, rfl, .own found present,
      ⟨rfl, present, rfl, rfl, rfl, rfl, rfl, rfl⟩, rfl, rfl, rfl⟩
  · obtain ⟨-, missing, -⟩ := resolve_eq_base.mp resolved
    obtain ⟨raw, got, held⟩ := Option.bind_eq_some_iff.mp listed
    obtain ⟨kind, kinds, -⟩ := Option.map_eq_some_iff.mp held
    have known : base.facts digests source = some (BaseTree.factsOfNode digests raw) := by
      simp [BaseTree.facts, got]
    rw [missing, known]
    simp only [Option.filter_none, BaseTree.factsOfNode, kinds]
    exact ⟨_, _, _, rfl, .adopted ino now resolved got kinds,
      ⟨rfl, rfl, rfl, rfl, rfl, rfl, rfl, rfl⟩, rfl, rfl, rfl⟩

/-- When a rename between two different places is admitted. -/
def Renamable (base : BaseTree) (rows : Rows) (source target : BytePath) (noReplace : Bool)
    : Prop :=
  (parentOf target = [] ∨ kindAt base rows (parentOf target) = some .directory)
  ∧ ∃ kind, kindAt base rows source = some kind
      ∧ (kindAt base rows target = none
          ∨ (noReplace = false
              ∧ ∃ replaced, kindAt base rows target = some replaced
                  ∧ replaced.isDir = kind.isDir
                  ∧ ∀ below, target ∈ ancestorsOf below → kindAt base rows below = none))

/-- The rename's checks pass exactly when it is admitted. -/
theorem renameChecks_ok {overlay : Overlay} {source target : BytePath} {targetParent : Parent}
    {noReplace : Bool} (sound : Sound digests base overlay.core) (indexed : overlay.Indexed)
    (targetFormed : WellFormed target)
    (truthful : targetParent.base = base.facts digests (parentOf target))
    : (do
        overlay.checkParent target targetParent.base
        match overlay.existing source (base.facts digests source) with
        | none => throw Condition.noEntry
        | some sourceKind =>
            match overlay.existing target (base.facts digests target) with
            | none => pure ()
            | some targetKind =>
                Overlay.checkReplace sourceKind targetKind
                  (overlay.mergedDirIsEmpty target (base.childNames target)) noReplace)
        = .ok ()
      ↔ Renamable base overlay.entries source target noReplace := by
  rw [checks_ok, truthful, checkParent_ok, existing_eq, existing_eq]
  unfold Renamable
  refine and_congr_right fun _ => ?_
  cases moving : kindAt base overlay.entries source with
  | none => simp [throw, throwThe, MonadExceptOf.throw]
  | some kind =>
      cases replaced : kindAt base overlay.entries target with
      | none => simp [pure, Except.pure]
      | some there =>
          have leaf : there.isDir = false
              → ∀ below, target ∈ ancestorsOf below
                  → kindAt base overlay.entries below = none := by
            intro file below above
            refine sound.placed.bare_of_leaf ?_ targetFormed.1 above
            simp only [Overlay.core, replaced, ne_eq, Option.some.injEq]
            intro same
            rw [same] at file
            cases file
          have empty := mergedDirIsEmpty_iff sound indexed (Or.inr targetFormed)
          simp only [Option.map_some, Overlay.checkReplace, OverlayKind.isDirLike_toEntryKind]
          cases noReplace with
          | true => simp
          | false =>
              cases moves : kind.isDir <;> cases stands : there.isDir
              · simpa [stands, moves] using leaf stands
              · simp [stands, moves]
              · simp [stands, moves]
              · simp only [Bool.false_eq_true, ↓reduceIte, Option.some.injEq, reduceCtorEq,
                  true_and, exists_eq_left', false_or, stands, moves]
                rw [← empty]
                cases overlay.mergedDirIsEmpty target (base.childNames target) <;> simp

/-- Where nothing but a file shows at the source, no row and no base node moves with it. -/
theorem renameChanges_of_leaf {core : Core} {source target : BytePath} {now : Timestamp}
    {moved : OverlayEntry} {nextIno : Nat} (nonroot : source ≠ [])
    (sound : Sound digests base core) (leaf : kindAt base core.rows source ≠ some .directory)
    : renameChanges digests base core.rows source target now moved nextIno
      = (rowsUnder core.rows target).map (fun victim => Change.delete victim.path)
        ++ [.put moved]
        ++ [Overlay.departure core.rows[source]? source (base.facts digests source) now] := by
  have bare (rel : BytePath) : kindAt base core.rows (source ++ slash :: rel) = none :=
    sound.placed.bare_of_leaf leaf nonroot (mem_ancestorsOf_append _ _)
  have noMovers
      : Overlay.moverChanges source target now (rowsUnder core.rows source) = [] := by
    unfold Overlay.moverChanges
    refine List.flatMap_eq_nil_iff.mpr ?_
    intro row member
    obtain ⟨rel, found⟩ := (mem_rowsUnder nonroot).mp member
    rw [sound.placed.not_present sound.keyed (bare rel) found]
    rfl
  have noArrivals
      : (Overlay.descendantChanges core.rows source target now nextIno
          (base.descendants digests source)).1 = [] := by
    cases changes : (Overlay.descendantChanges core.rows source target now nextIno
        (base.descendants digests source)).1 with
    | nil => rfl
    | cons change rest =>
        have member : change.write
            ∈ (Overlay.descendantChanges core.rows source target now nextIno
                (base.descendants digests source)).1.map Change.write := by
          rw [changes]
          simp
        obtain ⟨descendant, inside, kind, -, resolved, kinds, -, -⟩ :=
          mem_descendantWrites member
        obtain ⟨node, got, facts, -⟩ := BaseTree.mem_descendants.mp inside
        rw [facts] at kinds
        have shows := kindAt_of_base resolved got kinds
        rw [bare] at shows
        cases shows
  simp [renameChanges, noMovers, noArrivals]

/-- What an admitted rename did: the relocation, then the touch of either parent. -/
structure Renaming (digests : Digests) (base : BaseTree) (core : Core)
    (source target : BytePath) (after : Overlay) (mid between : Core)
    : Prop where
  relocates : Relocates digests base core.rows source target mid.rows
  step : Step digests base (.relocate source target) core mid
  kept
    : ∀ (path : BytePath) (row : OverlayEntry) (id : Nat),
        path ≠ target → core.rows[path]? = some row → row.content = .local id
        → mid.files[id]? = core.files[id]?
  first : Touches digests base mid between
  second : Touches digests base between after.core
  indexed : after.Indexed

/-- The commit of an admitted rename. `overlay` is the overlay the transaction starts from. -/
theorem rename_commit {overlay : Overlay} {source target : BytePath}
    {sourceParent targetParent : Parent} {now : Timestamp} {old moved : OverlayEntry}
    {nextIno : Nat} (sound : Sound digests base overlay.core) (indexed : overlay.Indexed)
    (sourceFormed : WellFormed source) (targetFormed : WellFormed target)
    (truthfulSource : sourceParent.base = base.facts digests (parentOf source))
    (truthfulTarget : targetParent.base = base.facts digests (parentOf target))
    (outsideTarget : Outside source target) (outsideSource : Outside target source)
    (above : UnderDirectories base overlay.entries target)
    (bare : ∀ below, target ∈ ancestorsOf below → kindAt base overlay.entries below = none)
    (standing : Standing digests base overlay.entries source old)
    (moves : Moves digests base source target old moved)
    : ∃ mid between,
        Renaming digests base overlay.core source target
          (overlay.commitRename source target sourceParent targetParent
            (renameChanges digests base overlay.entries source target now moved nextIno)
            ((overlay.entries[target]?.bind (·.content.localId)).toList
              ++ (rowsUnder overlay.entries target).filterMap (·.content.localId))
            now)
          mid between := by
  have relocates := @relocates_of_changes digests base overlay.core source target now moved
    nextIno sound sourceFormed targetFormed outsideTarget outsideSource above bare old standing
    moves
  have doomed : (rowsUnder overlay.entries target).filterMap (·.content.localId) = [] := by
    refine List.filterMap_eq_nil_iff.mpr ?_
    intro row member
    obtain ⟨rel, found⟩ := (mem_rowsUnder targetFormed.1).mp member
    have absent := sound.placed.not_present sound.keyed
      (bare _ (mem_ancestorsOf_append _ _)) found
    rw [(sound.hidden _ row found absent).2.2]
    rfl
  rw [doomed, List.append_nil]
  have released : ∀ id, id ∈ (overlay.entries[target]?.bind (·.content.localId)).toList
      → ∃ entry, overlay.entries[target]? = some entry ∧ entry.content = .local id := by
    intro id member
    obtain ⟨entry, found, content⟩ :=
      Option.bind_eq_some_iff.mp (Option.mem_toList.mp member)
    exact ⟨entry, found, localId_eq_some.mp content⟩
  have parentAway {path dir : BytePath} (nonroot : path ≠ [])
      (outside : Outside source path ∨ path = source)
      (beyond : Outside target path ∨ path = target)
      (near : dir = parentOf path ∨ dir ∈ ancestorsOf (parentOf path))
      : Outside source dir ∧ Outside target dir := by
    have member : dir ∈ ancestorsOf path := (mem_ancestorsOf_iff_parent nonroot).mpr near
    have self : ∀ {end_ : BytePath}, path = end_ → Outside end_ dir := by
      intro end_ same
      subst same
      refine ⟨fun equal => not_mem_ancestorsOf_self _ (equal ▸ member), fun inside => ?_⟩
      exact not_mem_ancestorsOf_self _ (ancestorsOf_trans inside member)
    exact ⟨outside.elim (fun away => away.ancestor member) (fun same => self same),
      beyond.elim (fun away => away.ancestor member) (fun same => self same)⟩
  obtain ⟨between, first, second, tidy⟩ := commitRename_spec sound truthfulSource
    truthfulTarget rfl
    (fun dir near =>
      have away := parentAway sourceFormed.1 (Or.inr rfl) (Or.inl outsideSource) near
      relocates.getElem?_outside away.1 away.2)
    (fun dir near =>
      have away := parentAway targetFormed.1 (Or.inl outsideTarget) (Or.inr rfl) near
      relocates.getElem?_outside away.1 away.2)
    (renameChanges_formed sound sourceFormed targetFormed moves.own)
  refine ⟨⟨_, _, _⟩, between, relocates, .relocate relocates released, ?_, first, second,
    tidy indexed⟩
  intro path row id apart found content
  exact sound.kept apart released found content

/-- The limit a directory's rename is held to. -/
def WithinLimit (digests : Digests) (base : BaseTree) (overlay : Overlay) (source : BytePath)
    : Prop :=
  kindAt base overlay.entries source = some .directory
  → (rowsUnder overlay.entries source).length + (base.descendants digests source).length
      ≤ overlay.config.maxRenameEntries

/-- A rename with an unacceptable end, or onto itself, changes nothing. -/
theorem rename_idle {overlay : Overlay} {host : Timestamp} {source target : BytePath}
    {sourceIno : Nat} {sourceBase targetBase : Option BaseFacts}
    {sourceParent targetParent : Parent} {descendants : List BaseDescendant}
    {empty noReplace : Bool}
    (idle
      : ¬ (pathCondition source = .ok () ∧ pathCondition target = .ok ()
            ∧ source ≠ [] ∧ target ≠ [] ∧ source ≠ target))
    : (overlay.rename host source sourceIno sourceBase sourceParent target targetBase
        targetParent descendants empty noReplace).2 = overlay := by
  unfold Overlay.rename Overlay.attemptRename
  split
  · rfl
  · rename_i passed
    rw [checks_ok, checks_ok] at passed
    obtain ⟨acceptedSource, acceptedTarget, nonroot⟩ := passed
    by_cases root : source = [] ∨ target = []
    · rw [if_pos root] at nonroot
      cases nonroot
    · rw [not_or] at root
      have same : source = target := by
        by_contra distinct
        exact idle ⟨acceptedSource, acceptedTarget, root.1, root.2, distinct⟩
      rw [if_pos same]
      rfl

/-- A rename between two different places either refuses, changing no row and no content, or
relocates the source and touches both parents.
-/
theorem rename_spec {overlay : Overlay} {host : Timestamp} {source target : BytePath}
    {sourceIno : Nat} {sourceParent targetParent : Parent} {noReplace : Bool}
    (sound : Sound digests base overlay.core) (indexed : overlay.Indexed)
    (truthfulSource : sourceParent.base = base.facts digests (parentOf source))
    (truthfulTarget : targetParent.base = base.facts digests (parentOf target))
    (accepted
      : pathCondition source = .ok () ∧ pathCondition target = .ok ()
        ∧ source ≠ [] ∧ target ≠ [])
    (distinct : source ≠ target)
    : (∃ refusal after,
        overlay.rename host source sourceIno (base.facts digests source) sourceParent target
            (base.facts digests target) targetParent (base.descendants digests source)
            (overlay.mergedDirIsEmpty target (base.childNames target)) noReplace
          = (.error refusal, after)
        ∧ after.core = overlay.core
        ∧ after.Indexed
        ∧ ¬ (isWithin target source = false
              ∧ Renamable base overlay.entries source target noReplace
              ∧ WithinLimit digests base overlay source))
      ∨ (isWithin target source = false
          ∧ Renamable base overlay.entries source target noReplace
          ∧ ∃ after mid between,
              overlay.rename host source sourceIno (base.facts digests source) sourceParent
                  target (base.facts digests target) targetParent
                  (base.descendants digests source)
                  (overlay.mergedDirIsEmpty target (base.childNames target)) noReplace
                = (.ok (), after)
              ∧ Renaming digests base overlay.core source target after mid between) := by
  obtain ⟨acceptedSource, acceptedTarget, sourceRoot, targetRoot⟩ := accepted
  have sourceFormed := wellFormed_of_pathCondition acceptedSource sourceRoot
  have targetFormed := wellFormed_of_pathCondition acceptedTarget targetRoot
  unfold Overlay.rename Overlay.attemptRename
  have admitted
      : (do
          pathCondition source
          pathCondition target
          if source = [] ∨ target = [] then throw Condition.invalid) = Except.ok () := by
    rw [checks_ok, checks_ok]
    refine ⟨acceptedSource, acceptedTarget, ?_⟩
    rw [if_neg (by simp [sourceRoot, targetRoot])]
    rfl
  simp only [admitted, distinct, ↓reduceIte]
  cases inside : isWithin target source with
  | true =>
      simp only [↓reduceIte]
      exact Or.inl ⟨_, _, rfl, rfl, indexed, fun all => by cases all.1⟩
  | false =>
      simp only [Bool.false_eq_true, ↓reduceIte]
      have outsideTarget := (isWithin_eq_false sourceRoot).mp inside
      have checks := @renameChecks_ok digests base overlay source target targetParent noReplace
        sound indexed targetFormed truthfulTarget
      split
      · rename_i refusal failed
        refine Or.inl ⟨refusal, overlay, rfl, rfl, indexed, ?_⟩
        intro all
        have passes := (checks.mpr all.2.1).symm.trans failed
        cases passes
      · rename_i passed
        have renamable := checks.mp passed
        obtain ⟨parentUsable, kind, shows, replaces⟩ := checks.mp passed
        have above := sound.placed.underDirectories targetRoot parentUsable
        have bare : ∀ below, target ∈ ancestorsOf below
            → kindAt base overlay.entries below = none := by
          rcases replaces with vacant | ⟨-, -, -, -, nothing⟩
          · intro below member
            refine sound.placed.bare_of_leaf ?_ targetRoot member
            simp only [Overlay.core, vacant, ne_eq, reduceCtorEq, not_false_eq_true]
          · exact nothing
        -- The source is not below the destination: something would show there.
        have outsideSource : Outside target source := by
          refine ⟨distinct, fun member => ?_⟩
          rw [bare source member] at shows
          cases shows
        obtain ⟨old, moved, after, made, standing, moves, sameCore, sameChildren, sameConfig⟩ :=
          @movedEntry_spec digests base (overlay.nextTime host).2 source target
            (overlay.nextTime host).1 sourceIno kind shows
        have kept : after.core = overlay.core := sameCore
        have stays : after.entries = overlay.entries := congrArg Core.rows kept
        have tidy : after.Indexed := indexed.congr (congrArg Core.rows kept) sameChildren
        have commits (nextIno : Nat) (start : Overlay) (same : start.core = overlay.core)
            (orderly : start.Indexed)
            : ∃ mid between,
                Renaming digests base overlay.core source target
                  (start.commitRename source target sourceParent targetParent
                    (renameChanges digests base overlay.entries source target
                      (overlay.nextTime host).1 moved nextIno)
                    ((overlay.entries[target]?.bind (·.content.localId)).toList
                      ++ (rowsUnder overlay.entries target).filterMap (·.content.localId))
                    (overlay.nextTime host).1)
                  mid between := by
          have rows : start.entries = overlay.entries := congrArg Core.rows same
          have made := @rename_commit digests base start source target sourceParent
            targetParent (overlay.nextTime host).1 old moved nextIno (same ▸ sound) orderly
            sourceFormed targetFormed truthfulSource truthfulTarget outsideTarget
            outsideSource (rows ▸ above) (rows ▸ bare) (rows ▸ standing) moves
          rw [same, rows] at made
          exact made
        have limit : overlay.config.maxRenameEntries = after.config.maxRenameEntries :=
          congrArg OverlayConfig.maxRenameEntries sameConfig.symm
        simp only [show (overlay.nextTime host).2.entries = overlay.entries from rfl] at made
        simp only [made]
        have showsOld : kindAt base overlay.entries source = some old.kind :=
          standing.shows sound.placed sound.keyed
        cases directory : moved.kind.isDir with
        | true =>
            simp only [↓reduceIte]
            split
            · rename_i many
              refine Or.inl ⟨_, after, rfl, kept, tidy, ?_⟩
              intro all
              have few := all.2.2
                (by rw [showsOld, ← moves.kind, OverlayKind.isDir_iff.mp directory])
              omega
            · obtain ⟨mid, between, done⟩ :=
                commits after.nextIno
                  {
                    after with
                    nextIno :=
                      (Overlay.descendantChanges overlay.entries source target
                        (overlay.nextTime host).1 after.nextIno
                        (base.descendants digests source)).2
                  }
                  kept tidy
              exact Or.inr ⟨trivial, renamable, _, mid, between, rfl, done⟩
        | false =>
            simp only [Bool.false_eq_true, ↓reduceIte]
            have leaf : kindAt base overlay.core.rows source ≠ some .directory := by
              intro isDirectory
              have same := showsOld.symm.trans isDirectory
              rw [← moves.kind, Option.some.injEq] at same
              rw [same] at directory
              cases directory
            obtain ⟨mid, between, done⟩ := commits 0 after kept tidy
            have changes := @renameChanges_of_leaf digests base overlay.core source target
              (overlay.nextTime host).1 moved 0 sourceRoot sound leaf
            simp only [Overlay.core] at changes
            rw [changes] at done
            exact Or.inr ⟨trivial, renamable, _, mid, between, rfl, done⟩

end Gfs.Overlay
