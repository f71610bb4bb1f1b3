import OneCcl.Coll.NaiveAllgatherv
import OneCcl.Coll.RingAllgatherv

/-!
# The naive allgatherv runs

No barrier follows the copy of a rank's block, which is done when it is started, nor the messages.
-/

namespace OneCcl

open Async List

variable {α : Type} {r : Nat}

/-- Rounds without barriers. -/
def openRounds (Ks : List KindsRound) : List SchedRound := Ks.map (.ofKinds false)

theorem openRounds_entries (Ks : List KindsRound) (r : Nat) :
    (openRounds Ks).flatMap (· r) = entriesOf false (Ks.flatMap (· r)) := by
  simp only [openRounds, flatMap_map, SchedRound.ofKinds, entriesOf_false, map_flatMap]

theorem openRounds_exec (op : α → α → α) (Ks : List KindsRound) (σ : Nat → Mem α) :
    execRounds op (openRounds Ks) σ = execKinds op Ks σ := by
  induction Ks generalizing σ with
  | nil => rfl
  | cons K Ks ih => exact (ih _).trans (congrArg (execKinds op Ks) (SchedRound.exec_barrier op (fun _ => false) true K σ))

namespace AgvCall

variable {A : AgvCall}

variable (A) in
def naiveRounds : List SchedRound := .ofKinds false A.copyKinds :: openRounds (agvGroup A.recvBuf A.counts A.n)

theorem cclCollBuildNaiveAllgatherv_rounds (check : Bool) (hr : r < A.n)
    (hbufs : AgvBufs (A.sendBuf r) A.recvBuf A.counts A.n r) :
    ∃ s, cclCollBuildNaiveAllgatherv check (A.sendBuf r) (A.counts r) A.recvBuf A.counts A.n r (.new 0) = some s ∧
      s.entries = A.naiveRounds.flatMap (· r) := by
  obtain ⟨inplace, hinplace, hcopies⟩ := isInplace_of_bufs hbufs check
  unfold cclCollBuildNaiveAllgatherv
  rw [if_neg (not_not_intro rfl), hinplace]
  refine ⟨_, rfl, (naiveAllgathervSteps_entries hr (show A.n - 1 < A.n by omega) _).trans ?_⟩
  rw [naiveRounds, flatMap_cons, openRounds_entries, SchedRound.ofKinds, copyKinds]
  congr 1
  by_cases h : A.Copies r
  · rw [if_pos (hcopies.mpr h), if_pos ⟨hr, h⟩]
    rfl
  · rw [if_neg (mt hcopies.mp h), if_neg fun hc => h hc.2]
    rfl

theorem naiveRounds_good : ∀ R ∈ A.naiveRounds, R.IsGood A.n := by
  intro R hR
  rcases mem_cons.mp hR with rfl | hR
  · exact copyKinds_good.isGood false
  · obtain ⟨K, hK, rfl⟩ := mem_map.mp hR
    obtain ⟨idx, hidx, rfl⟩ := mem_map.mp hK
    have := mem_range'_1.mp hidx
    exact (agvKinds_good (by omega) (by omega)).isGood false

theorem naive_raceFree (op : α → α → α) [Std.Commutative op] [Std.Associative op] (tag r : Nat) :
    RaceFree (A.naiveRounds.flatMap fun R => R.toRound op tag r) := by
  have hmap : ((openRounds (agvGroup A.recvBuf A.counts A.n)).flatMap fun R => R.toRound op tag r) =
      (entriesOf false ((agvGroup A.recvBuf A.counts A.n).flatMap (· r))).map (·.toEntry op r tag (id : Nat → Nat)) := by
    rw [← openRounds_entries, map_flatMap]
    rfl
  rw [naiveRounds, ← singleton_append, flatMap_append, hmap]
  -- the copy leaves nothing behind it, and the messages run beside each other
  refine raceFree_rounds (n := A.n) (fun R hR => ?_) (fun R hR => ?_) op tag r (.of_indep ?_)
  · rw [mem_singleton.mp hR]
    exact copyKinds_good.roomy.isRoomy false
  · rw [mem_singleton.mp hR]
    exact SchedRound.closed_of_local copyKinds_local false
  · rw [entriesOf_false, map_map]
    exact pairwise_map.mpr ((agvGroup_beside r).imp fun h => h.indep op r tag r tag id)

end AgvCall

/-- **Naive allgatherv.** Every run of the schedules completes with all blocks at every rank, one behind the other, for any
blocks, whichever ranks are in place. -/
theorem naive_allgatherv_correct {sendBuf : Nat → CclBuffer} {recvBuf : CclBuffer} {counts : Nat → Nat} {n : Nat}
    (op : α → α → α) [Std.Commutative op] [Std.Associative op] (check : Bool)
    (hbufs : ∀ r < n, AgvBufs (sendBuf r) recvBuf counts n r) (tag : Nat) (eager : Nat → Nat → Bool) (mem : Nat → Mem α) :
    ∃ sched : Nat → Sched,
      (∀ r < n, cclCollBuildNaiveAllgatherv check (sendBuf r) (counts r) recvBuf counts n r (.new 0) = some (sched r)) ∧
      ((schedNet op n tag eager sched).Completes mem fun s => ∀ r < n, load recvBuf (agvOffset counts n) (s.mem r) =
        (range n).flatMap fun b => load (sendBuf b) (counts b) (mem b)) ∧ MessagesMatch n sched := by
  let A : AgvCall := ⟨sendBuf, recvBuf, counts, n⟩
  obtain ⟨sched, hsched, hrun, hmatch⟩ := contract_of_rounds
    (fun r hr => A.cclCollBuildNaiveAllgatherv_rounds check hr (hbufs r hr)) AgvCall.naiveRounds_good
    (AgvCall.naive_raceFree op tag) eager mem
  refine ⟨sched, hsched, hrun.imp fun s hs r hr => ?_, hmatch⟩
  rw [load_agvOffset, hs r, AgvCall.naiveRounds, execRounds, openRounds_exec]
  refine flatMap_congr fun b hb => map_congr_left fun i hi => ?_
  rw [mem_range] at hb hi
  rw [CclBuffer.add_at, agvGroup_exec op _ hr hb hi, A.copy_exec op mem hb hi]

/-- Two ranks with blocks of three and no elements. -/
theorem naive_allgatherv_two : ∃ sched : Nat → Sched,
      (∀ r < 2, cclCollBuildNaiveAllgatherv true ⟨.user 0, 0⟩ ([3, 0].getD r 0) ⟨.user 1, 0⟩ ([3, 0].getD · 0) 2 r
        (.new 0) = some (sched r)) ∧
      (schedNet (· + ·) 2 0 (fun _ _ => false) sched).Completes (fun q _ => q + 1) fun s =>
        ∀ r < 2, load ⟨.user 1, 0⟩ 3 (s.mem r) = [1, 1, 1] := by
  have hbufs : ∀ r < 2, AgvBufs ⟨.user 0, 0⟩ ⟨.user 1, 0⟩ ([3, 0].getD · 0) 2 r :=
    fun r _ => .outOfPlace nofun (.inl nofun) nofun
  obtain ⟨sched, hsched, hrun, -⟩ := naive_allgatherv_correct (α := Nat) (· + ·) true hbufs 0 (fun _ _ => false)
    fun q _ => q + 1
  exact ⟨sched, hsched, hrun⟩

end OneCcl
