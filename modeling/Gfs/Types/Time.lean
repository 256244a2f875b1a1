import Gfs.Types.Basic

/-! The order of timestamps and the logical clock's arithmetic (`gfs-types/src/time.rs`). -/

namespace Gfs.Types

namespace Timestamp

/-- Seconds first, then nanoseconds. -/
instance linearOrder : LinearOrder Timestamp :=
  LinearOrder.lift' (fun time => toLex (time.secs, time.nanos)) (by
    intro left right same
    have pairs := Prod.mk.inj (toLex.injective same)
    cases left
    cases right
    simp_all)

theorem lt_def (left right : Timestamp)
    : left < right
      ↔ left.secs < right.secs ∨ (left.secs = right.secs ∧ left.nanos < right.nanos) :=
  Prod.Lex.toLex_lt_toLex

@[simp]
theorem lt_iff (left right : Timestamp) : left.lt right = true ↔ left < right := by
  rw [lt_def]
  simp [lt]

theorem max_eq (left right : Timestamp) : left.max right = Max.max left right := by
  unfold Timestamp.max
  rcases lt_or_ge left right with less | above
  · rw [if_pos ((lt_iff _ _).mpr less), max_eq_right less.le]
  · rw [if_neg (fun less => absurd ((lt_iff _ _).mp less) (not_lt.mpr above)),
      max_eq_left above]

/-- The time is not the last one an `i64` of seconds can tell. -/
def Steady (time : Timestamp) : Prop :=
  time.nanos + 1 < 1000000000 ∨ time.secs < 2 ^ 63 - 1

instance (time : Timestamp) : Decidable time.Steady :=
  inferInstanceAs (Decidable (_ ∨ _))

theorem lt_nextTick {time : Timestamp} (steady : time.Steady) : time < time.nextTick := by
  rw [lt_def]
  unfold nextTick
  split
  · rename_i carries
    have room : time.secs < 2 ^ 63 - 1 := by
      rcases steady with small | room
      · omega
      · exact room
    have advance : 0 < (time.nanos + 1) / 1000000000 := Nat.div_pos carries (by decide)
    refine Or.inl (lt_min ?_ room)
    omega
  · exact Or.inr ⟨rfl, Nat.lt_succ_self _⟩

end Timestamp

section Overlay

variable (host snapshotTime prior : Timestamp)

theorem host_le_overlayTime : host ≤ overlayTime host snapshotTime (some prior) := by
  simp only [overlayTime, Timestamp.max_eq]
  exact le_max_of_le_left (le_max_left _ _)

theorem floor_le_overlayTime
    : snapshotTime.nextTick ≤ overlayTime host snapshotTime (some prior) := by
  simp only [overlayTime, Timestamp.max_eq]
  exact le_max_of_le_left (le_max_right _ _)

theorem nextTick_le_overlayTime
    : prior.nextTick ≤ overlayTime host snapshotTime (some prior) := by
  simp only [overlayTime, Timestamp.max_eq]
  exact le_max_right _ _

theorem lt_overlayTime {prior : Timestamp} (steady : prior.Steady)
    : prior < overlayTime host snapshotTime (some prior) :=
  lt_of_lt_of_le (Timestamp.lt_nextTick steady) (nextTick_le_overlayTime host snapshotTime prior)

end Overlay

end Gfs.Types
