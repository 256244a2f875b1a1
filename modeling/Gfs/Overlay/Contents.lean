import Gfs.Overlay.Crash

/-! Content files over whole lives of an overlay (`gfs-overlay/src/lib.rs`, `store.rs`,
`journal.rs`): between operations, failures, stops and re-pins, the content a row names is that
row's alone, and there.
-/

namespace Gfs.Overlay

open Gfs.Lib.Runs
open Gfs.Types

/-- The condition on one part of a life: a caller gives numbers it may, and a stop loses no file
that the journal names.
-/
def Keeping (state : Durable) : Passage → Prop
  | .operation mutation _ => Careful state mutation
  | .stop mutation weather point left _ =>
      Careful state mutation ∧ Leaves (state.stoppedAt weather mutation point) left

/-- The books of an overlay's content, in memory, in the journal and on disk. -/
structure Owned (state : Durable) : Prop where
  keyed
    : ∀ (path : BytePath) (entry : OverlayEntry),
        state.memory.entries[path]? = some entry → entry.path = path
  indexed
    : ∀ (id : Nat) (path : BytePath),
        state.memory.byContent[id]? = some path ↔ Holds state.memory.entries path id
  alone
    : ∀ (id : Nat) (path other : BytePath),
        Holds state.memory.entries path id → Holds state.memory.entries other id → path = other
  stored
    : ∀ (path : BytePath) (id : Nat),
        Holds state.memory.entries path id → id ∈ state.memory.files
  journaled
    : ∀ (path : BytePath) (id : Nat),
        Holds state.journal.rows path id ↔ Holds state.memory.entries path id
  issued
    : ∀ (path : BytePath) (id : Nat),
        Holds state.memory.entries path id → id < state.journal.nextContentId

theorem Trails.holds {journaled held : Option OverlayEntry} (trails : Trails journaled held)
    (id : Nat)
    : (∃ entry, journaled = some entry ∧ entry.content = .local id)
      ↔ ∃ entry, held = some entry ∧ entry.content = .local id := by
  rcases trails with rfl | ⟨entry, own, size, mtime, ctime, rfl, content, rfl⟩
  · exact Iff.rfl
  · constructor
    · intro named
      obtain ⟨other, same, named⟩ := named
      cases same
      exact ⟨entry, rfl, named⟩
    · intro named
      obtain ⟨other, same, named⟩ := named
      cases same
      exact ⟨_, rfl, named⟩

theorem Stocked.owned {state : Durable} (stocked : Stocked state) : Owned state where
  keyed := stocked.stock.tidy.keyed
  indexed := fun id path => (stocked.stock.tidy.exact id path).trans (and_iff_right (by simp))
  alone := by
    intro id path other here there
    have first := (stocked.stock.tidy.exact id path).mpr ⟨by simp, here⟩
    have second := (stocked.stock.tidy.exact id other).mpr ⟨by simp, there⟩
    exact Option.some.inj (first.symm.trans second)
  stored := stocked.stock.stored
  journaled := fun path id => (stocked.trails path).holds id
  issued := stocked.issued

theorem Stocked.keep {state : Durable} (stocked : Stocked state) {passage : Passage}
    (keeping : Keeping state passage)
    : Stocked (state.pass passage) := by
  cases passage with
  | operation mutation weather => exact (stocked.apply keeping).2.1
  | stop mutation weather point left recovery =>
      obtain ⟨stage, -⟩ := @Stocked.stoppedAt state weather stocked mutation keeping.1 point
      exact (@Stocked.reopen _ recovery left stage keeping.2).1

/-- In every state of such a life, whatever failed or stopped on the way, each content id is
named by one row at most, the index finds that row, its file is there, the journal names the
same ids, and none of them is issued again after a restart.
-/
theorem life_owns_contents (recovery : Recovery) (life : List Passage)
    (keeping : Along Durable.pass Keeping (Durable.created recovery) life)
    : ∀ state ∈ states Durable.pass (Durable.created recovery) life, Owned state := by
  intro state member
  have stocked : Stocked state :=
    invariant (fun _ _ stocked allowed => stocked.keep allowed) (Stocked.created recovery)
      keeping state member
  exact stocked.owned

/-- A file is made and written. -/
theorem sampleWritten_owns_contents : Owned sampleWritten := by
  refine life_owns_contents sampleRecovery sampleWriting
    ⟨⟨Or.inl ?_, Or.inl ?_⟩, trivial, trivial⟩ _
    (foldl_mem_states _ _ _)
  all_goals decide

end Gfs.Overlay
