import OneCcl.Coll.SyclAllOrNothing
import OneCcl.Coll.SyclAllgather
import OneCcl.Coll.SyclBroadcast

/-!
# Placements and the SYCL collectives on several nodes

The broadcast, the reduce-scatter and the allgather go back and forth between a rank and its places on its node and between
the nodes as if the ranks were numbered node by node. Nothing checks that they are. For a placement that is not, a broadcast
brings the data of another rank, a reduce-scatter the block of another rank, and an allgather mixes up the blocks.
-/

namespace OneCcl

namespace SyclReduceScatter

variable {α : Type} (R : SyclReduceScatter α)

/-- What is asked of a call: buffers of the caller, a device buffer below 2 GiB, a size that is not left to the scheduler, a
number of chunks that an `int` holds, and a scale-out that is done. -/
structure Domain : Prop where
  buffers : R.Buffers
  device : R.env.deviceBufSize < 2 ^ 31
  started : R.doFallbackToScheduler = false
  counted : Counted R.recvCount R.maxPackCount
  done : ∀ c ∈ chunks R.recvCount R.maxPackCount, R.scaleOutDone c.2 = true ∧ R.Exact c.2

variable {R}

theorem Domain.fits (h : R.Domain) {c : Nat × Nat} (hc : c ∈ chunks R.recvCount R.maxPackCount) : R.Fits c.2 := by
  intro _
  have hle := h.counted.le hc
  unfold maxPackCount at hle
  rw [SyclEnv.deviceBufInt_of_lt h.device] at hle
  split at hle
  next hall => exact (Nat.mul_le_mul_right _ (Nat.mul_le_mul_right _ hle)).trans hall
  · have hbytes : c.2 * R.dtype.size ≤ R.env.deviceBufSize / R.place.size :=
      calc c.2 * R.dtype.size
          ≤ R.env.deviceBufSize / R.place.size / max 4 R.dtype.size * max 4 R.dtype.size :=
            (Nat.le_div_iff_mul_le R.dtype.size_pos).mp hle
        _ ≤ R.env.deviceBufSize / R.place.size := Nat.div_mul_le_self ..
    exact (Nat.le_div_iff_mul_le R.place.size_pos).mp hbytes

theorem Domain.run_right (h : R.Domain) (hplace : R.place.NodeByNode) (w : World α) :
    ∃ w', R.run w = .done w' ∧ R.Right w w' := by
  by_cases hone : R.place.nodes = 1
  · exact run_one hone w
  have hnodes := R.place.two_le_nodes hone
  obtain ⟨last, hlast⟩ := exists_last h.counted.max_pos h.counted.nchunks_pos
  obtain ⟨w', hleaves, hrun⟩ := run_eq hnodes h.buffers h.started h.counted.max_pos h.counted.nchunks_pos
    (allGoOn_of_flag last (fun _ hc => h.fits hc) (fun _ c hc => (h.done c hc).1)
      fun hd => absurd (h.done last (List.mem_of_getLast? hlast)).1 (ne_true_of_eq_false hd)) hlast w
  rw [(h.done last (List.mem_of_getLast? hlast)).1, if_pos rfl] at hrun
  exact ⟨w', hrun, hleaves.right h.counted.tiles hplace h.done⟩

end SyclReduceScatter

/-- One element of one byte, from user buffer 0 to user buffer 1. -/
def oneByteBroadcast (P : Placement) (root : Nat) : SyclBroadcast Nat :=
  ⟨⟨.mpi, false, false, 1, 1, 1, 1, none, 1, none, 0, 0⟩, 1, P, ⟨.other, 1, Nat.one_pos⟩, fun _ => ⟨.user 0, 0⟩,
    fun _ => ⟨.user 1, 0⟩, 1, root⟩

theorem oneByteBroadcast_domain {P : Placement} {root : Nat} (hroot : root < P.size) : (oneByteBroadcast P root).Domain := by
  have hmax : (oneByteBroadcast P root).maxIterCount = 1 := by
    have hbuf : (oneByteBroadcast P root).bufSize = 1 := by
      show asSizeT (asInt 1) = 1
      rw [asInt_of_lt (by decide), asSizeT_of_nat (by decide)]
    unfold SyclBroadcast.maxIterCount
    rw [hbuf]
    rfl
  have hcounted : Counted 1 1 := ⟨by decide, by decide, by decide⟩
  refine ⟨hroot, fun _ => ⟨0, rfl⟩, fun _ => ⟨1, rfl⟩, fun _ => .inr nofun, show 1 < 2 ^ 31 by decide, rfl, ?_⟩
  rw [hmax]
  exact hcounted

/-- **The SYCL broadcast, reduce-scatter and allgather on several nodes are right on a placement exactly when its ranks are
numbered node by node**, for all calls, roots, counts and buffer contents in the range of their `int`s, with building blocks
that are right and done. -/
theorem sycl_placement_iff (P : Placement) :
    ((∀ (α : Type) (B : SyclBroadcast α), B.place = P → B.Domain → ∀ w, ∃ w', B.run w = .done w' ∧ B.Right w w') ∧
      (∀ (α : Type) (R : SyclReduceScatter α), R.place = P → R.Domain → ∀ w, ∃ w', R.run w = .done w' ∧ R.Right w w') ∧
      (∀ (α : Type) (G : SyclAllgather α), G.place = P → G.Domain → ∀ w, ∃ w', G.run w = .done w' ∧ G.Right w w')) ↔
      P.NodeByNode := by
  constructor
  · rintro ⟨hbroadcast, -, -⟩ root hroot
    -- each rank sends its number
    have hdomain := oneByteBroadcast_domain hroot
    obtain ⟨w', hrun, hright⟩ := hbroadcast Nat (oneByteBroadcast P root) rfl hdomain fun r _ => r
    obtain ⟨w'', hrun', hsource⟩ := hdomain.run_eq fun r _ => r
    obtain rfl : w' = w'' := Outcome.done.inj (hrun.symm.trans hrun')
    have heq : (oneByteBroadcast P root).source 0 = root :=
      (hsource 0 P.size_pos 0 Nat.one_pos).symm.trans (hright 0 P.size_pos 0 Nat.one_pos)
    have hslot := SyclBroadcast.slot_source (B := oneByteBroadcast P root) hroot P.size_pos
    rwa [heq] at hslot
  · intro hplace
    refine ⟨?_, ?_, ?_⟩
    · rintro α B rfl h w
      obtain ⟨w', hrun, hsource⟩ := h.run_eq w
      refine ⟨w', hrun, fun r hr i hi => ?_⟩
      have hroot : B.source r = B.root :=
        (hplace _ (SyclBroadcast.source_lt h.root hr)).symm.trans (SyclBroadcast.slot_source h.root hr)
      rw [hsource r hr i hi, hroot]
    · rintro α R rfl h
      exact h.run_right hplace
    · rintro α G rfl h
      exact h.run_right hplace

def oneByteGather (P : Placement) : SyclAllgather Nat :=
  ⟨⟨.mpi, false, false, 1, 4, 4, 1, none, 1, none, 0, 1⟩, none, false, 0, P, ⟨.other, 1, Nat.one_pos⟩, fun _ => ⟨.user 0, 0⟩,
    fun _ => ⟨.user 1, 0⟩, 1⟩

/-- Numbered node by node, two nodes with two ranks each are served right. -/
theorem two_by_two_right :
    (∀ w, ∃ w', (oneByteBroadcast twoByTwo 1).run w = .done w' ∧ (oneByteBroadcast twoByTwo 1).Right w w') ∧
      (∀ w, ∃ w', (scatterSum (directEnv 4 16) twoByTwo 1).run w = .done w' ∧
        (scatterSum (directEnv 4 16) twoByTwo 1).Right w w') ∧
      ∀ w, ∃ w', (oneByteGather twoByTwo).run w = .done w' ∧ (oneByteGather twoByTwo).Right w w' := by
  have hcounted : Counted 1 1 := ⟨by decide, by decide, by decide⟩
  have hplace : twoByTwo.NodeByNode := by
    unfold Placement.NodeByNode
    decide
  have hscatter : Counted 1 (scatterSum (directEnv 4 16) twoByTwo 1).maxPackCount := by
    rw [show (scatterSum (directEnv 4 16) twoByTwo 1).maxPackCount = 1 by decide +kernel]
    exact hcounted
  have hgather : Counted 1 (oneByteGather twoByTwo).maxPackCount := by
    rw [show (oneByteGather twoByTwo).maxPackCount = 1 by decide +kernel]
    exact hcounted
  obtain ⟨hb, hr, hg⟩ := (sycl_placement_iff twoByTwo).mpr hplace
  refine ⟨hb Nat _ rfl (oneByteBroadcast_domain (by decide)), hr Nat _ rfl ?_, hg Nat _ rfl ?_⟩
  · exact ⟨scatterSum_buffers .., by decide, by decide, hscatter, fun c _ => ⟨rfl, fun _ => nofun⟩⟩
  · refine ⟨by decide, hgather, fun _ => ⟨0, rfl⟩, fun _ => ⟨1, rfl⟩, fun _ => .inr nofun, by decide, fun c _ => ?_⟩
    simp [SyclAllgather.scaleOutDone, oneByteGather]

/-- Two nodes with two ranks each, numbered round robin. -/
def roundRobin : Placement := ⟨2, 2, (· % 2), Nat.two_pos, Nat.two_pos, by decide, by decide⟩

/-- What a call that is done left at an address. -/
def Outcome.doneAt {α : Type} (o : Outcome (World α)) (r : Nat) (a : BufSrc × Nat) : Option α :=
  match o with
  | .done w => some (w r a)
  | _ => none

theorem Outcome.exists_done {α : Type} {o : Outcome (World α)} {r : Nat} {a : BufSrc × Nat} {x : α}
    (h : o.doneAt r a = some x) : ∃ w, o = .done w ∧ w r a = x := by
  cases o with
  | done w => exact ⟨w, rfl, Option.some.inj h⟩
  | fallback w => cases h
  | torn => cases h
  | stopped => cases h

/-- Round robin, every rank has rank 2's data after a broadcast from rank 1, rank 1 has block 2 after a reduce-scatter, and
rank 2's data is at block 1 after an allgather. -/
theorem round_robin_wrong :
    (∃ w w', (oneByteBroadcast roundRobin 1).run w = .done w' ∧ ¬ (oneByteBroadcast roundRobin 1).Right w w') ∧
      (∃ w w', (scatterSum (directEnv 4 16) roundRobin 1).run w = .done w' ∧
        ¬ (scatterSum (directEnv 4 16) roundRobin 1).Right w w') ∧
      ∃ w w', (oneByteGather roundRobin).run w = .done w' ∧ ¬ (oneByteGather roundRobin).Right w w' := by
  refine ⟨⟨fun r _ => r, ?_⟩, ⟨fun _ a => a.2, ?_⟩, ⟨fun r _ => r, ?_⟩⟩
  · have hrun : ((oneByteBroadcast roundRobin 1).run fun r _ => r).doneAt 0 (.user 1, 0) = some 2 := by decide +kernel
    obtain ⟨w', hdone, hgot⟩ := Outcome.exists_done hrun
    refine ⟨w', hdone, fun hright => ?_⟩
    cases hgot.symm.trans (hright 0 (by decide) 0 (by decide))
  · have hrun : ((scatterSum (directEnv 4 16) roundRobin 1).run fun _ a => a.2).doneAt 1 (.user 1, 0) = some 8 := by
      decide +kernel
    obtain ⟨w', hdone, hgot⟩ := Outcome.exists_done hrun
    refine ⟨w', hdone, fun hright => ?_⟩
    cases hgot.symm.trans (hright 1 (by decide) 0 (by decide))
  · have hrun : ((oneByteGather roundRobin).run fun r _ => r).doneAt 0 (.user 1, 1) = some 2 := by decide +kernel
    obtain ⟨w', hdone, hgot⟩ := Outcome.exists_done hrun
    refine ⟨w', hdone, fun hright => ?_⟩
    cases hgot.symm.trans (hright 0 (by decide) 1 (by decide) 0 (by decide))

end OneCcl
