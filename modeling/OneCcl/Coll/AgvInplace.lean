import OneCcl.Reduction.Parts
import OneCcl.Sched.Entry

/-!
# The blocks of an allgatherv

Where the blocks of an allgatherv lie in the receive buffer, and when the send buffer is one of them.
-/

namespace OneCcl

open List

/-- `offsets`: where the block of a rank begins, in elements. -/
def agvOffset (recvCounts : Nat → Nat) (rank : Nat) : Nat := ((range rank).map recvCounts).sum

/-- `ccl::is_allgatherv_inplace`, which throws on a send buffer inside the receive buffer but at another place when
`check_inplace_aliasing` is set. -/
def isAllgathervInplace (checkInplaceAliasing : Bool) (sendBuf : CclBuffer) (sendCount : Nat) (recvBuf : CclBuffer)
    (recvCounts : Nat → Nat) (rank commSize : Nat) : Option Bool :=
  let recvBufSize := agvOffset recvCounts commSize
  let addressAliasing := sendBuf.src = recvBuf.src ∧ recvBuf.offset ≤ sendBuf.offset ∧
    sendBuf.offset < recvBuf.offset + recvBufSize
  let inplace := sendBuf.src = .null ∨ sendBuf = recvBuf + agvOffset recvCounts rank
  if sendCount ≠ recvCounts rank then none
  else if addressAliasing ∧ ¬ inplace ∧ checkInplaceAliasing then none
  else some (decide inplace)

theorem agvOffset_succ (counts : Nat → Nat) (q : Nat) : agvOffset counts (q + 1) = agvOffset counts q + counts q := by
  unfold agvOffset
  rw [range_succ, map_append, sum_append, map_singleton, sum_singleton]

theorem agvOffset_eq_sumTo (counts : Nat → Nat) : agvOffset counts = Parts.sumTo counts := by
  funext q
  induction q with
  | zero => rfl
  | succ q ih => rw [agvOffset_succ, Parts.sumTo, ih]

theorem agv_apart (recvBuf : CclBuffer) (counts : Nat → Nat) {q q' : Nat} (hne : q ≠ q') :
    PieceApart (recvBuf + agvOffset counts q, counts q) (recvBuf + agvOffset counts q', counts q') := by
  refine .inr ?_
  simp only [CclBuffer.add_offset, agvOffset_eq_sumTo]
  rcases hne.lt_or_gt with h | h
  · have := Parts.sumTo_ordered counts h
    omega
  · have := Parts.sumTo_ordered counts h
    omega

theorem isAllgathervInplace_block (check : Bool) (recvBuf : CclBuffer) (counts : Nat → Nat) (r n : Nat) :
    isAllgathervInplace check (recvBuf + agvOffset counts r) (counts r) recvBuf counts r n = some true := by
  unfold isAllgathervInplace
  simp

theorem load_agvOffset {α : Type} (recvBuf : CclBuffer) (counts : Nat → Nat) (n : Nat) (m : Mem α) :
    load recvBuf (agvOffset counts n) m =
      (range n).flatMap fun b => load (recvBuf + agvOffset counts b) (counts b) m := by
  induction n with
  | zero => rfl
  | succ n ih =>
    rw [range_succ, flatMap_append, ← ih, flatMap_singleton, agvOffset_succ]
    unfold load
    rw [range_add, map_append, map_map]
    simp only [CclBuffer.add_at]
    rfl

end OneCcl
