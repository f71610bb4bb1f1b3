import OneCcl.Comm.Comm
import OneCcl.Sched.Rounds

/-!
# The first copy

Out of place, the builders first copy a rank's data to `recv_buf` and go on as in place. On a communicator of one
rank that is all there is to do.
-/

namespace OneCcl

open Async List

/-- What the ranks of an allreduce pass. -/
structure AllreduceCall where
  comm : CclComm
  sendBuf : Nat → CclBuffer
  recvBuf : CclBuffer
  count : Nat
  bufs : ∀ r < comm.size, CollBufs (sendBuf r) recvBuf count

namespace AllreduceCall

variable (A : AllreduceCall)

abbrev n : Nat := A.comm.size

theorem recvBuf_ne_alloc (num i : Nat) : A.recvBuf.src ≠ .alloc num i :=
  ((A.bufs 0 A.comm.size_pos).recv_ne_alloc num i).symm

theorem recvBuf_ne_null : A.recvBuf.src ≠ .null := (A.bufs 0 A.comm.size_pos).recv_ne_null

end AllreduceCall

variable {n r count : Nat} {α : Type} {sendBuf : Nat → CclBuffer} {recvBuf : CclBuffer} {build : Nat → Option Sched}

/-- The first step of a builder: the copy to `recv_buf`, if the collective is not in place. -/
def copyIn (sendBuf recvBuf : CclBuffer) (count : Nat) (sched : Sched) : Sched :=
  if sendBuf ≠ recvBuf then (sched.create (.copy sendBuf recvBuf count)).addBarrier else sched

def copyKinds (sendBuf : Nat → CclBuffer) (recvBuf : CclBuffer) (count n r : Nat) : List EntryKind :=
  if sendBuf r ≠ recvBuf ∧ r < n then [.copy (sendBuf r) recvBuf count] else []

theorem copyIn_entries (sendBuf : Nat → CclBuffer) (recvBuf : CclBuffer) (count : Nat) (hr : r < n) (sched : Sched) :
    (copyIn (sendBuf r) recvBuf count sched).entries =
      sched.entries ++ entriesOf true (copyKinds sendBuf recvBuf count n r) := by
  unfold copyIn copyKinds
  by_cases h : sendBuf r ≠ recvBuf
  · rw [if_pos h, if_pos ⟨h, hr⟩, Sched.addBarrier_create_entries, entriesOf_singleton]
  · rw [if_neg h, if_neg fun hc => h hc.1, entriesOf_nil, append_nil]

theorem copyIn_num (sendBuf recvBuf : CclBuffer) (count : Nat) (sched : Sched) :
    (copyIn sendBuf recvBuf count sched).num = sched.num := by
  unfold copyIn
  split <;> rfl

theorem copyIn_allocs (sendBuf recvBuf : CclBuffer) (count : Nat) (sched : Sched) :
    (copyIn sendBuf recvBuf count sched).allocs = sched.allocs := by
  unfold copyIn
  split <;> rfl

theorem copyKinds_good (sendBuf : Nat → CclBuffer) (recvBuf : CclBuffer) (count n : Nat) :
    KindsGood (copyKinds sendBuf recvBuf count n) n :=
  kindsGood_ite (fun _ hr => hr.2) fun _ => rfl

/-- **After the copy** every rank has its data in `recv_buf`. -/
theorem copy_exec (op : α → α → α) (b : Bool) {i : Nat} (σ : Nat → Mem α) (hr : r < n) (hi : i < count) :
    SchedRound.exec op (.ofKinds b (copyKinds sendBuf recvBuf count n)) σ r (recvBuf.at i) =
      σ r ((sendBuf r).at i) := by
  by_cases heq : sendBuf r = recvBuf
  · rw [exec_idle op b σ (if_neg fun hc => hc.1 heq), heq]
  · rw [exec_copy op b σ (if_pos ⟨heq, hr⟩), compCopy_at hi]

theorem copy_contract (op : α → α → α) (b : Bool) {sched : Nat → Sched} (hbuild : ∀ r < n, build r = some (sched r))
    (hentries : ∀ r < n, (sched r).entries = entriesOf b (copyKinds sendBuf recvBuf count n r)) (tag : Nat)
    (eager : Nat → Nat → Bool) (mem : Nat → Mem α) : ∃ sched : Nat → Sched, (∀ r < n, build r = some (sched r)) ∧
      ((schedNet op n tag eager sched).Completes mem fun s =>
        ∀ r < n, ∀ i < count, s.mem r (recvBuf.at i) = mem r ((sendBuf r).at i)) ∧
      ∀ r < n, ∀ e ∈ (sched r).entries, e.kind.isLocal = true := by
  have hgood := copyKinds_good sendBuf recvBuf count n
  have hlocal : ∀ r, ∀ k ∈ copyKinds sendBuf recvBuf count n r, k.isLocal = true := by
    intro r k hk
    unfold copyKinds at hk
    obtain ⟨-, hk⟩ := mem_ite_nil_right.mp hk
    rw [mem_singleton.mp hk]
    rfl
  have hone : ∀ R ∈ [SchedRound.ofKinds b (copyKinds sendBuf recvBuf count n)], R.IsGood n := fun R hR =>
    mem_singleton.mp hR ▸ hgood.isGood b
  refine ⟨sched, hbuild, ?_, fun r hr e he => ?_⟩
  · refine (completes_of_rounds hone (fun r hr => ?_) op tag eager mem fun r => ?_).imp fun s hs r hr i hi => ?_
    · rw [hentries r hr, flatMap_singleton]
      rfl
    · exact raceFree_of_closed hone (fun R hR => mem_singleton.mp hR ▸ SchedRound.closed_of_local hlocal b) op tag r
    · rw [hs r]
      exact copy_exec op b mem hr hi
  · rw [hentries r hr] at he
    exact hlocal r _ (mem_entriesOf he)

theorem copyIn_contract (op : α → α → α)
    (hbuild : ∀ r < n, build r = some (copyIn (sendBuf r) recvBuf count (.new 0))) (tag : Nat)
    (eager : Nat → Nat → Bool) (mem : Nat → Mem α) : ∃ sched : Nat → Sched, (∀ r < n, build r = some (sched r)) ∧
      ((schedNet op n tag eager sched).Completes mem fun s =>
        ∀ r < n, ∀ i < count, s.mem r (recvBuf.at i) = mem r ((sendBuf r).at i)) ∧
      ∀ r < n, ∀ e ∈ (sched r).entries, e.kind.isLocal = true :=
  copy_contract op true hbuild (fun _ hr => copyIn_entries sendBuf recvBuf count hr _) tag eager mem

end OneCcl
