import Gfs.Lib.Totals
import Gfs.Overlay.Stock

/-! The accounting of local bytes across a transaction. It is kept change by change in saturating
arithmetic; where nothing saturates it is the sum of the rows' sizes, and a transaction that
gives back what it takes never ends above where it began.
-/

namespace Gfs.Overlay

open Gfs.Types
open Gfs.Lib.Nesting
open Gfs.Lib.Totals
open Gfs.Lib.Overwrites
open Std (ExtTreeMap ExtTreeSet)

-- Weights

/-- The local bytes of a row. -/
def OverlayEntry.weight (entry : OverlayEntry) : Nat :=
  if entry.content.localId.isSome then entry.size else 0

/-- The local bytes that a change puts. -/
def Change.weight : Change → Nat
  | .put entry => entry.weight
  | .delete _ => 0

/-- The local bytes of the row at a path. -/
def Overlay.heldAt (overlay : Overlay) (path : BytePath) : Nat :=
  held OverlayEntry.weight overlay.entries[path]?

/-- The local bytes of all rows. -/
def Overlay.rowBytes (overlay : Overlay) : Nat :=
  total OverlayEntry.weight overlay.entries

/-- The account is the sum of the rows. -/
def Exact (overlay : Overlay) : Prop :=
  overlay.localBytes = overlay.rowBytes

section Weights

variable {overlay : Overlay} {change : Change} {stamp : Bool}

theorem bytesWithout_eq (overlay : Overlay) (path : BytePath)
    : overlay.bytesWithout path = overlay.localBytes - overlay.heldAt path := by
  rw [Overlay.bytesWithout, Overlay.heldAt]
  cases overlay.entries[path]? with
  | none => rfl
  | some entry =>
      cases content : entry.content.localId with
      | none => simp [held, OverlayEntry.weight, content, Option.filter]
      | some id => simp [held, OverlayEntry.weight, content, Option.filter]

variable {entry : OverlayEntry}

theorem weight_of_blank (blank : entry.content.localId = none)
    : entry.weight = 0 := by
  simp [OverlayEntry.weight, blank]

theorem Change.Plain.weight (plain : change.Plain) : change.weight = 0 := by
  cases change with
  | put entry => exact weight_of_blank (plain entry rfl)
  | delete path => rfl

theorem bytesWith_le (overlay : Overlay) (entry : OverlayEntry)
    : overlay.bytesWith entry
      ≤ overlay.localBytes - overlay.heldAt entry.path + entry.weight := by
  rw [Overlay.bytesWith, bytesWithout_eq, OverlayEntry.weight]
  split
  · exact Nat.min_le_left _ _
  · exact Nat.le_refl _

theorem bytesWith_eq (room : overlay.localBytes - overlay.heldAt entry.path + entry.weight < 2 ^ 64)
    : overlay.bytesWith entry
      = overlay.localBytes - overlay.heldAt entry.path + entry.weight := by
  rw [OverlayEntry.weight] at room ⊢
  rw [Overlay.bytesWith, bytesWithout_eq]
  split
  · rename_i here
    rw [if_pos here] at room
    exact Nat.min_eq_left (by omega)
  · rfl

theorem applyChange_localBytes_le (overlay : Overlay) (stamp : Bool) (change : Change)
    : (overlay.applyChange stamp change).localBytes
      ≤ overlay.localBytes - overlay.heldAt change.write.1 + change.weight := by
  cases change with
  | put entry => exact bytesWith_le overlay entry
  | delete path => exact Nat.le_of_eq (bytesWithout_eq overlay path)

theorem applyChange_rowBytes (overlay : Overlay) (stamp : Bool) (change : Change)
    : (overlay.applyChange stamp change).rowBytes + overlay.heldAt change.write.1
      = overlay.rowBytes + change.weight := by
  cases change with
  | put entry => exact total_insert entry.path entry
  | delete path => exact total_erase path

theorem heldAt_le_rowBytes (overlay : Overlay) (path : BytePath)
    : overlay.heldAt path ≤ overlay.rowBytes :=
  held_le_total path

theorem heldAt_of_row {path : BytePath} (found : overlay.entries[path]? = some entry)
    : overlay.heldAt path = entry.weight := by
  rw [Overlay.heldAt, found]
  rfl

theorem Exact.applyChange (exact_ : Exact overlay)
    (room : overlay.rowBytes + change.weight < 2 ^ 64)
    : Exact (overlay.applyChange stamp change) := by
  have rows := applyChange_rowBytes overlay stamp change
  have here := heldAt_le_rowBytes overlay change.write.1
  rw [Exact] at exact_ ⊢
  cases change with
  | put entry =>
      have bytes : overlay.bytesWith entry = _ :=
        bytesWith_eq (by rw [exact_]; simp only [Change.weight] at room; omega)
      change overlay.bytesWith entry = _
      simp only [Change.write, Change.weight] at rows here
      omega
  | delete path =>
      change overlay.bytesWithout path = _
      rw [bytesWithout_eq]
      simp only [Change.write, Change.weight] at rows here
      omega

theorem Exact.applyChanges {changes : List Change} (exact_ : Exact overlay)
    (room : overlay.rowBytes + (changes.map Change.weight).sum < 2 ^ 64)
    : Exact (changes.foldl (Overlay.applyChange stamp) overlay) := by
  induction changes generalizing overlay with
  | nil => exact exact_
  | cons change changes ih =>
      rw [List.map_cons, List.sum_cons] at room
      have rows := applyChange_rowBytes overlay stamp change
      exact ih (exact_.applyChange (by omega)) (by omega)

theorem localBytes_of_plain {changes : List Change} (plain : ∀ change ∈ changes, change.Plain)
    : (changes.foldl (Overlay.applyChange stamp) overlay).localBytes ≤ overlay.localBytes := by
  induction changes generalizing overlay with
  | nil => exact Nat.le_refl _
  | cons change changes ih =>
      have one := applyChange_localBytes_le overlay stamp change
      rw [(plain change List.mem_cons_self).weight] at one
      have rest := @ih (overlay.applyChange stamp change)
        (fun other later => plain other (List.mem_cons_of_mem _ later))
      rw [List.foldl_cons]
      omega

end Weights

-- Moving rows

section Moving

variable {overlay : Overlay} {stamp : Bool} {source target : BytePath}

theorem apart_of_below (outside : ¬ isWithin target source = true)
    (inside : ¬ isWithin source target = true) {path : BytePath} (below : Below slash source path)
    : path ≠ target ∧ ¬ Below slash target path := by
  rw [isWithin_iff] at outside inside
  constructor
  · intro same
    exact outside (.inr (.inr (same ▸ below)))
  · intro beyond
    rcases below.linear beyond with equal | above | above
    · exact outside (.inr (.inl equal.symm))
    · exact outside (.inr (.inr above))
    · exact inside (.inr (.inr above))

theorem moverEntry_weight (source target : BytePath) (now : Timestamp) (row : OverlayEntry)
    : (Overlay.moverEntry source target now row).weight = row.weight := rfl

variable {movers : List OverlayEntry}

/-- Deleting rows and putting them elsewhere, one by one, takes no more than there was or than
one of them weighs.
-/
theorem localBytes_moverChanges {now : Timestamp} {limit : Nat}
    (there : ∀ row ∈ movers, overlay.entries[row.path]? = some row)
    (distinct : movers.Pairwise (fun left right => left.path ≠ right.path))
    (elsewhere
      : ∀ row ∈ movers, ∀ other ∈ movers,
          (Overlay.moverEntry source target now other).path ≠ row.path)
    (light : ∀ row ∈ movers, row.weight ≤ limit) (within : overlay.localBytes ≤ limit)
    : ((Overlay.moverChanges source target now movers).foldl (Overlay.applyChange stamp)
        overlay).localBytes ≤ limit := by
  induction movers generalizing overlay with
  | nil => exact within
  | cons row movers ih =>
      rw [List.pairwise_cons] at distinct
      have rest {between : Overlay} (same : ∀ other ∈ movers,
            between.entries[other.path]? = overlay.entries[other.path]?)
          (kept : between.localBytes ≤ limit)
          : ((Overlay.moverChanges source target now movers).foldl (Overlay.applyChange stamp)
              between).localBytes ≤ limit := by
        apply ih
        · intro other member
          rw [same other member, there other (List.mem_cons_of_mem _ member)]
        · exact distinct.2
        · intro other member another listed
          exact elsewhere other (List.mem_cons_of_mem _ member) another
            (List.mem_cons_of_mem _ listed)
        · exact fun other member => light other (List.mem_cons_of_mem _ member)
        · exact kept
      simp only [Overlay.moverChanges, List.flatMap_cons, List.foldl_append]
      by_cases present : row.present = true
      · rw [if_pos present]
        simp only [List.foldl_cons, List.foldl_nil]
        apply rest
        · intro other member
          rw [applyChange_other, applyChange_other]
          · exact (distinct.1 other member).symm
          · exact (elsewhere other (List.mem_cons_of_mem _ member) row
              List.mem_cons_self).symm
        · -- What the deletion gives back is what the put takes.
          have gone := applyChange_localBytes_le overlay stamp (.delete row.path)
          have back := applyChange_localBytes_le
            (overlay.applyChange stamp (.delete row.path)) stamp
            (.put (Overlay.moverEntry source target now row))
          have weighs := heldAt_of_row (there row List.mem_cons_self)
          have small := light row List.mem_cons_self
          simp only [Change.write, Change.weight, moverEntry_weight] at gone back
          omega
      · rw [if_neg present]
        exact rest (fun _ _ => rfl) within

theorem applyChanges_other {changes : List Change} {path : BytePath}
    (apart : ∀ change ∈ changes, change.write.1 ≠ path)
    : (changes.foldl (Overlay.applyChange stamp) overlay).entries[path]?
      = overlay.entries[path]? := by
  induction changes generalizing overlay with
  | nil => rfl
  | cons change changes ih =>
      rw [List.foldl_cons, ih (fun other later => apart other (List.mem_cons_of_mem _ later)),
        applyChange_other (apart change List.mem_cons_self).symm]

variable {moved : OverlayEntry}

variable {arrived : List Change} {left : Change}

theorem Moving.blank (tidy : Tidy none overlay)
    (moving : Moving overlay source target moved movers arrived left)
    (directory : moved.kind.isDir = true)
    : moved.content.localId = none := by
  rcases moving.origin with ⟨row, found, content, kind, -⟩ | blank
  · rw [content]
    exact tidy.blank source row found (kind ▸ directory)
  · exact blank

/-- A rename ends with no more local bytes than there were, or than one row weighs. -/
theorem localBytes_moveChanges {between : Overlay} {now : Timestamp} {limit : Nat}
    {touches : List Change} (tidy : Tidy none overlay)
    (moving : Moving overlay source target moved movers arrived left) (sourceNonroot : source ≠ [])
    (targetNonroot : target ≠ []) (outside : ¬ isWithin target source = true)
    (inside : ¬ isWithin source target = true) (plain : ∀ change ∈ touches, change.Plain)
    (rows : between.entries = overlay.entries) (light : ∀ path, overlay.heldAt path ≤ limit)
    (within : between.localBytes ≤ limit)
    : ((moveChanges overlay source target now moved movers arrived left ++ touches).foldl
        (Overlay.applyChange stamp) between).localBytes ≤ limit := by
  have targetRow {row : OverlayEntry} (member : row ∈ rowsUnder overlay.entries target) :=
    rowsUnder_row tidy targetNonroot member
  have sourceRow {row : OverlayEntry} (member : row ∈ rowsUnder overlay.entries source) :=
    rowsUnder_row tidy sourceNonroot member
  have clears : ∀ change ∈ (rowsUnder overlay.entries target).map
      (fun victim => Change.delete victim.path), change.Plain := by
    intro change member entry written
    obtain ⟨victim, -, rfl⟩ := List.mem_map.mp member
    cases written
  have apart {path : BytePath} (away : ¬ Below slash target path)
      : ∀ change ∈ (rowsUnder overlay.entries target).map
          (fun victim => Change.delete victim.path), change.write.1 ≠ path := by
    intro change member same
    obtain ⟨victim, listed, rfl⟩ := List.mem_map.mp member
    exact away (same ▸ (targetRow listed).2)
  have lower := Nat.le_trans (@localBytes_of_plain between stamp _ clears) within
  simp only [moveChanges, List.append_assoc, List.cons_append, List.foldl_append,
    List.foldl_cons, List.nil_append]
  generalize cleared : List.foldl (Overlay.applyChange stamp) between
    ((rowsUnder overlay.entries target).map (fun victim => Change.delete victim.path)) = emptied
    at lower
  have kept {path : BytePath} (away : ¬ Below slash target path)
      : emptied.entries[path]? = overlay.entries[path]? := by
    rw [← cleared, applyChanges_other (apart away), rows]
  have put := applyChange_localBytes_le emptied stamp (.put moved)
  simp only [Change.write, Change.weight, moving.own] at put
  rcases moving.below with ⟨rfl, rfl⟩ | ⟨directory, rfl⟩
  · -- A file: its own row is what is left behind next, and weighs as much.
    apply Nat.le_trans (localBytes_of_plain plain)
    simp only [Overlay.moverChanges, List.flatMap_nil, List.foldl_nil]
    have leave := applyChange_localBytes_le (emptied.applyChange stamp (.put moved)) stamp left
    rw [moving.leaves.weight, moving.there] at leave
    rcases moving.origin with ⟨row, found, content, -, size⟩ | blank
    · have away : ¬ Below slash target source := fun below =>
        inside (isWithin_iff.mpr (.inr (.inr below)))
      have other : source ≠ target := fun same =>
        inside (isWithin_iff.mpr (.inr (.inl same)))
      have weighs : moved.weight = row.weight := by
        rw [OverlayEntry.weight, OverlayEntry.weight, content, size]
      have there
          : (emptied.applyChange stamp (.put moved)).heldAt source = row.weight := by
        apply heldAt_of_row
        rw [applyChange_other (by rw [Change.write, moving.own]; exact other), kept away, found]
      omega
    · rw [weight_of_blank blank] at put
      omega
  · have blank := weight_of_blank (moving.blank tidy directory)
    have ends : ∀ change ∈ arrived ++ (left :: touches), change.Plain := by
      intro change member
      rcases List.mem_append.mp member with first | later
      · exact moving.arrives change first
      · rcases List.mem_cons.mp later with rfl | last
        · exact moving.leaves
        · exact plain change last
    have fold (start : Overlay)
        : touches.foldl (Overlay.applyChange stamp)
            (Overlay.applyChange stamp (arrived.foldl (Overlay.applyChange stamp) start) left)
          = (arrived ++ (left :: touches)).foldl (Overlay.applyChange stamp) start := by
      rw [List.foldl_append, List.foldl_cons]
    rw [fold]
    apply Nat.le_trans (localBytes_of_plain ends)
    apply localBytes_moverChanges
    · intro row member
      obtain ⟨found, below⟩ := sourceRow member
      obtain ⟨other, away⟩ := apart_of_below outside inside below
      rw [applyChange_other (by rw [Change.write, moving.own]; exact other), kept away, found]
    · exact rowsUnder_distinct tidy.keyed source
    · intro row member another listed same
      obtain ⟨-, below⟩ := sourceRow member
      obtain ⟨rel, there⟩ := (sourceRow listed).2
      apply (apart_of_below outside inside below).2
      refine ⟨rel, ?_⟩
      rw [← same, Overlay.moverEntry, there, List.drop_left]
    · intro row member
      rw [← heldAt_of_row (sourceRow member).1]
      exact light row.path
    · omega

theorem weights_of_plain {changes : List Change} (plain : ∀ change ∈ changes, change.Plain)
    : (changes.map Change.weight).sum = 0 := by
  apply List.sum_eq_zero
  intro weight member
  obtain ⟨change, listed, rfl⟩ := List.mem_map.mp member
  exact (plain change listed).weight

theorem weights_of_rows
    (there : ∀ row ∈ movers, overlay.entries[row.path]? = some row)
    (distinct : movers.Pairwise (fun left right => left.path ≠ right.path))
    : (movers.map OverlayEntry.weight).sum ≤ overlay.rowBytes := by
  have paths : (movers.map OverlayEntry.path).Nodup := List.pairwise_map.mpr distinct
  calc
    (movers.map OverlayEntry.weight).sum
        = ((movers.map OverlayEntry.path).map overlay.heldAt).sum := by
      rw [List.map_map]
      congr 1
      apply List.map_congr_left
      intro row member
      exact (heldAt_of_row (there row member)).symm
    _ = ∑ path ∈ (movers.map OverlayEntry.path).toFinset, overlay.heldAt path :=
      (List.sum_toFinset _ paths).symm
    _ ≤ overlay.rowBytes := sum_held_le_total _

theorem weights_moverChanges (source target : BytePath) (now : Timestamp)
    (movers : List OverlayEntry)
    : ((Overlay.moverChanges source target now movers).map Change.weight).sum
      ≤ (movers.map OverlayEntry.weight).sum := by
  induction movers with
  | nil => exact Nat.le_refl _
  | cons row movers ih =>
      simp only [Overlay.moverChanges, List.flatMap_cons, List.map_append, List.sum_append,
        List.map_cons, List.sum_cons] at ih ⊢
      apply Nat.add_le_add _ ih
      split
      · simp [Change.weight, moverEntry_weight]
      · exact Nat.zero_le _

theorem Moving.weight_le (moving : Moving overlay source target moved movers arrived left)
    : moved.weight ≤ overlay.heldAt source := by
  rcases moving.origin with ⟨row, found, content, -, size⟩ | blank
  · rw [heldAt_of_row found, OverlayEntry.weight, OverlayEntry.weight, content, size]
  · rw [weight_of_blank blank]
    exact Nat.zero_le _

/-- No change of a rename puts more than some row weighs. -/
theorem weight_of_mem_moveChanges {now : Timestamp} {touches : List Change}
    (tidy : Tidy none overlay) (moving : Moving overlay source target moved movers arrived left)
    (sourceNonroot : source ≠ []) (plain : ∀ change ∈ touches, change.Plain) {change : Change}
    (member : change ∈ moveChanges overlay source target now moved movers arrived left ++ touches)
    : ∃ path, change.weight ≤ overlay.heldAt path := by
  have nothing {other : Change} (none_ : other.weight = 0)
      : ∃ path, other.weight ≤ overlay.heldAt path :=
    ⟨source, by rw [none_]; exact Nat.zero_le _⟩
  simp only [moveChanges, List.mem_append, List.mem_cons, List.mem_map, Overlay.moverChanges,
    List.mem_flatMap, List.not_mem_nil, or_false] at member
  rcases member with (⟨victim, -, rfl⟩ | rfl | ⟨row, listed, moves⟩ | first | rfl) | touch
  · exact nothing rfl
  · exact ⟨source, moving.weight_le⟩
  · rcases moving.below with ⟨rfl, -⟩ | ⟨-, rfl⟩
    · cases listed
    · split at moves
      · simp only [List.mem_cons, List.not_mem_nil, or_false] at moves
        rcases moves with rfl | rfl
        · exact nothing rfl
        · refine ⟨row.path, ?_⟩
          rw [heldAt_of_row (rowsUnder_row tidy sourceNonroot listed).1]
          exact Nat.le_refl _
      · cases moves
  · exact nothing (moving.arrives change first).weight
  · exact nothing moving.leaves.weight
  · exact nothing (plain change touch).weight

/-- A rename puts no more than the rows weigh. -/
theorem weights_moveChanges {now : Timestamp}
    {arrived touches : List Change} {left : Change}
    (tidy : Tidy none overlay)
    (moving : Moving overlay source target moved movers arrived left)
    (sourceNonroot : source ≠ []) (plain : ∀ change ∈ touches, change.Plain)
    : ((moveChanges overlay source target now moved movers arrived left ++ touches).map
        Change.weight).sum
      ≤ overlay.rowBytes := by
  have clears : (((rowsUnder overlay.entries target).map
      (fun victim => Change.delete victim.path)).map Change.weight).sum = 0 := by
    apply weights_of_plain
    intro change member entry written
    obtain ⟨victim, -, rfl⟩ := List.mem_map.mp member
    cases written
  simp only [moveChanges, List.map_append, List.sum_append, List.map_cons, List.sum_cons,
    List.map_nil, List.sum_nil, clears, weights_of_plain plain,
    weights_of_plain moving.arrives, moving.leaves.weight]
  have moves := weights_moverChanges source target now movers
  change 0 + (moved.weight + _) + 0 ≤ _
  rcases moving.below with ⟨rfl, rfl⟩ | ⟨directory, rfl⟩
  · have lighter := Nat.le_trans moving.weight_le (heldAt_le_rowBytes overlay source)
    simp only [List.map_nil, List.sum_nil] at moves
    omega
  · have blank := weight_of_blank (moving.blank tidy directory)
    have all := weights_of_rows
      (fun row member => (rowsUnder_row tidy sourceNonroot member).1)
      (rowsUnder_distinct tidy.keyed source)
    omega

end Moving

end Gfs.Overlay
