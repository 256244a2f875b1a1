import Gfs.Service.Housekeeping

/-! Anchors and leases between all lease operations (`gfs-service/src/mounts.rs`,
`catalog/leases.rs`): which ref stands for which mount, and who may change it.
-/

namespace Gfs.Service

open Gfs.Lib
open Gfs.Types

/-- The rows, refs and locks of a service agree on whose mount is where. -/
structure Anchored (watched : Watched) : Prop where
  /-- Every ref in the mounts' namespace is the anchor of a mount of this repository, at the
  commit the mount was created for.
  -/
  anchors
    : ∀ repositoryId name commit,
        (watched.server.refs repositoryId)[name]? = some commit
        → isMountRef name = true
        → ∃ m, name = leaseAnchorRef m ∧ watched.drawn m = some (repositoryId, commit)
  rows
    : ∀ (m : Text) (row : Lease),
        watched.server.leases[m]? = some row
        → row.mountId.1 = m
          ∧ row.anchorRef = leaseAnchorRef m
          ∧ watched.drawn m = some (row.repositoryId, row.commit)
  pinned
    : ∀ (m : Text) (row : Lease) (commit : ObjectId),
        watched.server.leases[m]? = some row
        → (watched.server.refs row.repositoryId)[row.anchorRef]? = some commit
        → commit = row.commit
  alone
    : ∀ op phase other later repositoryId,
        watched.server.ops op = some phase
        → watched.server.ops other = some later
        → phase.holding = some repositoryId
        → later.holding = some repositoryId
        → op = other

theorem Sound.anchored {policy : LeasePolicy} {watched : Watched} (sound : Sound policy watched)
    : Anchored watched where
  anchors := sound.anchors
  rows := by
    intro m row stored
    obtain ⟨rfl, born⟩ := sound.rows m row stored
    exact ⟨rfl, born.anchorRef, born.drawn⟩
  pinned := by
    intro m row commit stored anchored
    obtain ⟨rfl, born⟩ := sound.rows m row stored
    rw [born.anchorRef] at anchored
    obtain ⟨other, same, drawn⟩ :=
      sound.anchors _ _ commit anchored (isMountRef_leaseAnchorRef row.mountId.1)
    rw [← List.append_cancel_left same, born.drawn] at drawn
    exact (Prod.mk.inj (Option.some.inj drawn)).2.symm
  alone := by
    intro op phase other later repositoryId flying beside holds holdsToo
    have mine := sound.locks op phase repositoryId flying holds
    rw [sound.locks other later repositoryId beside holdsToo] at mine
    exact (Option.some.inj mine).symm

/-- Through every interleaving of creations, renewals, releases, sweeps, reconciles, faults and
crashes, where no mount id is drawn twice, anchors and leases stay one another's.
-/
theorem leases_keep_their_anchors (policy : LeasePolicy) (watched : Watched) (events : List Event)
    (fresh : watched.Fresh) (drawn : Runs.Along (Watched.step policy) DrawsFresh watched events)
    : ∀ state ∈ Runs.states (Watched.step policy) watched events, Anchored state := by
  intro state member
  have sound : Sound policy state :=
    Runs.invariant (fun _ event sound allowed => sound.step event allowed) fresh.sound drawn
      state member
  exact sound.anchored

/-- A creation crashes after its anchor, and is reconciled. -/
theorem crashedCreate_keeps_anchors
    : Anchored (crashedCreate.foldl (Watched.step adr0006) demoServer) :=
  leases_keep_their_anchors adr0006 demoServer crashedCreate demoServer_fresh (by decide) _
    (Runs.foldl_mem_states _ _ _)

end Gfs.Service
