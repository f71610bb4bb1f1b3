import OneCcl.Coll.AgvInplace
import OneCcl.Coll.RingAllgather
import OneCcl.Coll.RingReduceScatter

/-!
# The blocking SYCL ring allreduce

`allreduce_ring_blocking`: a reduce-scatter in a ring that leaves block `r` at rank `r`, and an allgather of the blocks
in the same ring. The functions run on the caller's thread: they post messages to the transport, wait for them, and
start device kernels and wait for those. What a rank does is here the list of what it posts. Where it waits for
everything it posted stands a barrier. In the reduce-scatter it waits for its receive, reduces what it received, and
only then waits for its send: that is a receive that computes when its message is there, beside the send.

The device buffer is two halves that are used in turn. A message that arrives in one half is reduced there and sent
from there in the next step, while the next message arrives in the other.

All messages have one tag. `allreduce_ring_exec` is what the steps leave.
-/

namespace OneCcl

open Async Reduction List Parts SchedRound

/-! ## The functions -/

/-- `ccl::is_reduce_scatter_inplace`. Buffers of different allocations do not alias. -/
def isReduceScatterInplace (checkInplaceAliasing : Bool) (sendBuf recvBuf : CclBuffer) (recvCount rank commSize : Nat) :
    Option Bool :=
  let addressAliasing := recvBuf.src = sendBuf.src ∧ sendBuf.offset ≤ recvBuf.offset ∧
    recvBuf.offset < sendBuf.offset + recvCount * commSize
  let inplace := recvBuf = sendBuf + rank * recvCount
  if addressAliasing ∧ ¬ inplace ∧ checkInplaceAliasing then none else some inplace

/-- A receive, the wait for it, and `reduce_pair_invoke` of what was received: the result goes where the message is, or
where the other operand is. -/
def recvReducePair (in1 : CclBuffer) (cnt src : Nat) (in2 out : CclBuffer) : Option EntryKind :=
  if out = in2 then some (.recvReduce in1 cnt src in2 .commBuf)
  else if out = in1 then some (.recvReduce in1 cnt src in2 .localBuf)
  else none

/-- The variables of the loop of the reduce-scatter. -/
structure RingState where
  s : Nat
  r : Nat
  index : Nat
  sendPtr : CclBuffer
  sched : Sched
  deriving DecidableEq, Repr

def deviceBuf (index : Nat) : CclBuffer := ⟨.alloc 0 index, 0⟩

section

variable (sendBuf recvBuf : CclBuffer) (mainBlockCount lastBlockCount world left right : Nat) (inPlace : Bool)

def reduceScatterRingStep (x : RingState) (iter : Nat) : Option RingState := do
  let sendBlockCount := if x.s = world - 1 then lastBlockCount else mainBlockCount
  let recvBlockCount := if x.r = world - 1 then lastBlockCount else mainBlockCount
  let sendPtr := if iter = 0 then sendBuf + x.s * mainBlockCount else x.sendPtr
  let recvPtr := if iter = world - 2 then if !inPlace then recvBuf else deviceBuf x.index else deviceBuf x.index
  let outPtr := if iter = world - 2 then recvBuf else recvPtr
  let receive ← recvReducePair (sendBuf + x.r * mainBlockCount) recvBlockCount left recvPtr outPtr
  let sched := ((x.sched.create receive).create (.send sendPtr sendBlockCount right)).addBarrier
  return ⟨x.r, (x.r + world - 1) % world, x.index ^^^ 1, recvPtr, sched⟩

end

/-- `reduce_scatter_ring_blocking_impl`. -/
def reduceScatterRingBlockingImpl (checkInplaceAliasing : Bool) (sendBuf recvBuf : CclBuffer) (count : Nat)
    (comm : CclComm) (rank : Nat) (sched : Sched) : Option Sched := do
  let world := comm.size
  let mainBlockCount := count / world
  let lastBlockCount := mainBlockCount + count % world
  let inPlace ← isReduceScatterInplace checkInplaceAliasing sendBuf recvBuf mainBlockCount rank world
  let right := (rank + 1) % world
  let left := (rank + world - 1) % world
  let s := (rank + world - 1) % world
  let r := (s + world - 1) % world
  let x ← (range (world - 1)).foldlM
    (reduceScatterRingStep sendBuf recvBuf mainBlockCount lastBlockCount world left right inPlace)
    ⟨s, r, 0, .empty, sched⟩
  return x.sched

def allgathervRingStep (recvBuf : CclBuffer) (recvCounts offsets : Nat → Nat) (world left right : Nat)
    (x : Nat × Nat × Sched) (_iter : Nat) : Nat × Nat × Sched :=
  let (s, r, sched) := x
  let sched := sched.create (.recv (recvBuf + offsets r) (recvCounts r) left)
  let sched := (sched.create (.send (recvBuf + offsets s) (recvCounts s) right)).addBarrier
  (r, (r + world - 1) % world, sched)

/-- `allgatherv_ring_blocking`, called without offsets. -/
def allgathervRingBlocking (checkInplaceAliasing : Bool) (sendBuf : CclBuffer) (sendCount : Nat) (recvBuf : CclBuffer)
    (recvCounts : Nat → Nat) (comm : CclComm) (rank : Nat) (sched : Sched) : Option Sched := do
  let world := comm.size
  let offsets := agvOffset recvCounts
  let inPlace ← isAllgathervInplace checkInplaceAliasing sendBuf sendCount recvBuf recvCounts rank world
  let sched := if !inPlace then (sched.create (.copy sendBuf (recvBuf + offsets rank) sendCount)).addBarrier else sched
  let right := (rank + 1) % world
  let left := (rank + world - 1) % world
  let x := (range (world - 1)).foldl (allgathervRingStep recvBuf recvCounts offsets world left right)
    (rank, (rank + world - 1) % world, sched)
  return x.2.2

/-- The counts of the blocks, as `allreduce_ring_blocking` hands them on. -/
def ringRecvCounts (count world i : Nat) : Nat :=
  if i < world - 1 then count / world else count / world + count % world

/-- `allreduce_ring_blocking`. -/
def allreduceRingBlocking (checkInplaceAliasing : Bool) (sendBuf recvBuf : CclBuffer) (count : Nat) (comm : CclComm)
    (rank : Nat) (sched : Sched) : Option Sched := do
  let world := comm.size
  let mainBlockCount := count / world
  let lastBlockCount := mainBlockCount + count % world
  let recvLocalBuf := recvBuf + rank * mainBlockCount
  let sched ← reduceScatterRingBlockingImpl checkInplaceAliasing sendBuf recvLocalBuf count comm rank sched
  let agSendCount := if rank = world - 1 then lastBlockCount else mainBlockCount
  allgathervRingBlocking checkInplaceAliasing recvLocalBuf agSendCount recvBuf (ringRecvCounts count world) comm rank sched

/-! ## The blocks -/

theorem mod_two_xor_one (t : Nat) : t % 2 ^^^ 1 = (t + 1) % 2 := by
  rcases Nat.mod_two_eq_zero_or_one t with h | h <;> rw [h, Nat.add_mod, h] <;> rfl

section

variable {recvBuf : CclBuffer} {count n r i : Nat} {comm : CclComm}

theorem isReduceScatterInplace_eq (check : Bool) {sendBuf : CclBuffer} (hbufs : CollBufs sendBuf recvBuf count)
    (hr : r < n) : isReduceScatterInplace check sendBuf (recvBuf + r * (count / n)) (count / n) r n =
      some (decide (sendBuf = recvBuf)) := by
  have hin : recvBuf + r * (count / n) = sendBuf + r * (count / n) ↔ sendBuf = recvBuf :=
    ⟨fun h => (CclBuffer.add_right_cancel h).symm, fun h => by rw [h]⟩
  have hend : count / n * n ≤ count := Nat.div_mul_le_self count n
  have hmul : r * (count / n) + count / n ≤ count / n * n := by
    rw [Nat.mul_comm r, ← Nat.mul_succ]
    exact Nat.mul_le_mul_left _ hr
  have hzero : count / n = 0 → count / n * n = 0 := fun h => by rw [h, Nat.zero_mul]
  unfold isReduceScatterInplace
  rw [if_neg]
  · exact congrArg some (decide_eq_decide.mpr hin)
  · -- buffers that do not overlap are not taken for aliases
    rintro ⟨⟨hsrc, hlo, hhi⟩, hne, -⟩
    rw [hin] at hne
    rw [CclBuffer.add_offset] at hlo hhi
    rcases hbufs.apart with h | h | h | h | h
    · exact hne h
    · exact h hsrc.symm
    all_goals
      simp only at h
      generalize count / n * n = d at *
      generalize r * (count / n) = e at *
      generalize count / n = f at *
      omega

/-- The ring of the allgather: blocks one behind the other, all of them sent. -/
abbrev blockRing (recvBuf : CclBuffer) (cnts : Nat → Nat) (n : Nat) : GatherRing :=
  ⟨false, false, recvBuf, sumTo cnts, cnts, n⟩

variable (recvBuf) in
/-- **The allgather makes its rounds**, in place. -/
theorem allgathervRingBlocking_entries (check : Bool) (recvCounts : Nat → Nat) (hn : 2 ≤ comm.size)
    (hr : r < comm.size) (s : Sched) :
    ∃ s', allgathervRingBlocking check (recvBuf + sumTo recvCounts r) (recvCounts r) recvBuf recvCounts comm r s =
        some s' ∧
      s'.entries = s.entries ++ ((blockRing recvBuf recvCounts comm.size).rounds (comm.size - 1)).flatMap (· r) := by
  have hprev : (r + comm.size - 1) % comm.size = rotDown comm.size r 1 := mod_rotDown hr (by omega)
  have hnext : (r + 1) % comm.size = rotUp comm.size r 1 := mod_rotUp hr (by omega)
  have hloop : ∀ m, m < comm.size → ∃ s',
      (range m).foldl (allgathervRingStep recvBuf recvCounts (sumTo recvCounts) comm.size
        (rotDown comm.size r 1) (rotUp comm.size r 1)) (r, rotDown comm.size r 1, s) =
        (rotDown comm.size r m, (rotDown comm.size r m + comm.size - 1) % comm.size, s') ∧
      s'.entries = s.entries ++ ((blockRing recvBuf recvCounts comm.size).rounds m).flatMap (· r) := by
    intro m hm
    induction m with
    | zero =>
      refine ⟨s, ?_, (append_nil _).symm⟩
      rw [rotDown_zero, hprev]
      rfl
    | succ m ih =>
      obtain ⟨s', hs', he⟩ := ih (by omega)
      have hstep : (rotDown comm.size r m + comm.size - 1) % comm.size = rotDown comm.size r (m + 1) := by
        rw [mod_rotDown (rotDown_lt hr (by omega)) (by omega), rotDown_rotDown_one hr (by omega)]
      refine ⟨((s'.create (.recv (recvBuf + sumTo recvCounts (rotDown comm.size r (m + 1)))
        (recvCounts (rotDown comm.size r (m + 1))) (rotDown comm.size r 1))).create
        (.send (recvBuf + sumTo recvCounts (rotDown comm.size r m)) (recvCounts (rotDown comm.size r m))
          (rotUp comm.size r 1))).addBarrier, ?_, ?_⟩
      · rw [range_succ, foldl_append, hs', hstep]
        rfl
      · rw [Sched.addBarrier_create_entries, Sched.create_entries, he, GatherRing.rounds_succ]
        simp [GatherRing.kinds, hr, GatherRing.recv, GatherRing.send]
  obtain ⟨s', hs', he⟩ := hloop (comm.size - 1) (by omega)
  refine ⟨s', ?_, he⟩
  unfold allgathervRingBlocking
  dsimp only
  rw [← agvOffset_eq_sumTo] at hs' ⊢
  rw [isAllgathervInplace_block, hprev, hnext]
  exact congrArg (fun x => some x.2.2) hs'

theorem ringRecvCounts_eq (count : Nat) (hi : i < n) : ringRecvCounts count n i = size count n i := by
  unfold ringRecvCounts size
  split <;> split <;> first | rfl | omega

theorem sumTo_ringRecvCounts (count : Nat) (hi : i < n) :
    sumTo (ringRecvCounts count n) i = offset count n i := by
  rw [sumTo_congr fun j hj => ringRecvCounts_eq count (show j < n by omega), sumTo_size hi]

theorem deviceBuf_ne {j : Nat} (h : i ≠ j) : (deviceBuf i).src ≠ (deviceBuf j).src := fun he =>
  h (BufSrc.alloc.inj he).2

theorem ringBlocks_apart (recvBuf : CclBuffer) (cnts : Nat → Nat) (n : Nat) :
    (blockRing recvBuf cnts n).Apart := by
  intro b _ b' _ hne
  show PieceApart (recvBuf + sumTo cnts b, cnts b) (recvBuf + sumTo cnts b', cnts b')
  rw [← agvOffset_eq_sumTo]
  exact agv_apart recvBuf cnts hne

end

/-! ## The rounds -/

namespace AllreduceCall

section

variable (A : AllreduceCall)

/-- The loop of the reduce-scatter, as rank `r` runs it. -/
abbrev scatterLoop (r : Nat) : RingState → Nat → Option RingState :=
  reduceScatterRingStep (A.sendBuf r) (A.recvBuf + offset A.count A.n r) (A.count / A.n) (A.count / A.n + A.count % A.n)
    A.n (ringPrev A.n r) (ringNext A.n r) (decide (A.sendBuf r = A.recvBuf))

/-- The block rank `r` sends in step `t`. -/
def blockOff (r t : Nat) : Nat := offset A.count A.n (ringBlock A.n r t)

def blockLen (r t : Nat) : Nat := size A.count A.n (ringBlock A.n r t)

/-- What a rank receives and reduces in step `t`. In the last step the result goes to its block of `recv_buf`. -/
def receive (t r : Nat) : EntryKind :=
  let in1 := A.sendBuf r + A.blockOff r (t + 1)
  let cnt := A.blockLen r (t + 1)
  if t + 2 = A.n then
    if A.sendBuf r = A.recvBuf then .recvReduce in1 cnt (ringPrev A.n r) (deviceBuf (t % 2)) .localBuf
    else .recvReduce in1 cnt (ringPrev A.n r) (A.recvBuf + A.blockOff r (t + 1)) .commBuf
  else .recvReduce in1 cnt (ringPrev A.n r) (deviceBuf (t % 2)) .commBuf

/-- Where what a rank sends in step `t` lies. -/
def sent (t r : Nat) : CclBuffer := if t = 0 then A.sendBuf r + A.blockOff r 0 else deviceBuf ((t + 1) % 2)

/-- Where the result of step `t` lies. -/
def out (t r : Nat) : CclBuffer := if t + 2 = A.n then A.recvBuf + A.blockOff r (t + 1) else deviceBuf (t % 2)

/-- Step `t` of the reduce-scatter. -/
def swap (t r : Nat) : Option Swap :=
  if r < A.n then
    some ⟨A.receive t r, A.sent t r, ringNext A.n r, A.blockLen r t, ringPrev A.n r, A.blockLen r (t + 1)⟩
  else none

def round (t : Nat) : SchedRound := .ofKinds true (swapKinds false (A.swap t))

def rounds (m : Nat) : List SchedRound := (range m).map A.round

def allRounds : List SchedRound :=
  A.rounds (A.n - 1) ++ (blockRing A.recvBuf (ringRecvCounts A.count A.n) A.n).rounds (A.n - 1)

end

/-! ## The functions make the rounds -/

variable {A : AllreduceCall} {r t i j : Nat}

theorem recv_ne_alloc (A : AllreduceCall) (i : Nat) : A.recvBuf.src ≠ .alloc 0 i :=
  ((A.bufs 0 A.comm.size_pos).recv_ne_alloc 0 i).symm

/-- A rank's next block is what its left neighbour has now. -/
theorem block_prev (hr : r < A.n) (ht : t + 1 < A.n) : A.blockOff (ringPrev A.n r) t = A.blockOff r (t + 1) ∧
    A.blockLen (ringPrev A.n r) t = A.blockLen r (t + 1) := by
  unfold blockOff blockLen
  rw [ringBlock_ringPrev hr ht]
  exact ⟨rfl, rfl⟩

theorem block_last (hr : r < A.n) (ht : t + 2 = A.n) :
    A.blockOff r (t + 1) = offset A.count A.n r ∧ A.blockLen r (t + 1) = size A.count A.n r := by
  unfold blockOff blockLen
  rw [show t + 1 = A.n - 1 by omega, ringBlock_last hr]
  exact ⟨rfl, rfl⟩

theorem block_le (hr : r < A.n) (ht : t < A.n) : A.blockOff r t + A.blockLen r t ≤ A.count :=
  offset_add_size_le A.count (ringBlock_lt hr ht)

/-- **One iteration of the reduce-scatter is step `t`.** -/
theorem reduceScatterRingStep_eq (hr : r < A.n) (ht : t + 1 < A.n) {x : RingState} (hs : x.s = ringBlock A.n r t)
    (hx : x.r = ringBlock A.n r (t + 1)) (hindex : x.index = t % 2) (hptr : t ≠ 0 → x.sendPtr = deviceBuf ((t + 1) % 2)) :
    ∃ x', A.scatterLoop r x t = some x' ∧
      x'.s = ringBlock A.n r (t + 1) ∧ (t + 2 < A.n → x'.r = ringBlock A.n r (t + 2) ∧ x'.sendPtr = deviceBuf (t % 2)) ∧
      x'.index = (t + 1) % 2 ∧ x'.sched.entries = x.sched.entries ++ A.round t r := by
  have hsend : (if t = 0 then A.sendBuf r + x.s * (A.count / A.n) else x.sendPtr) = A.sent t r := by
    unfold sent blockOff offset
    split
    next h0 => rw [hs, h0, Nat.mul_comm]
    next h0 => exact hptr h0
  have hin1 : A.sendBuf r + x.r * (A.count / A.n) = A.sendBuf r + A.blockOff r (t + 1) := by
    rw [hx, Nat.mul_comm]
    rfl
  have hentries : ∀ (s : Sched) (k : EntryKind), k = A.receive t r →
      ((s.create k).create (.send (A.sent t r) (A.blockLen r t) (ringNext A.n r))).addBarrier.entries =
        s.entries ++ A.round t r := by
    rintro s k rfl
    rw [Sched.addBarrier_create_entries, round, ofKinds, swapKinds, swap, if_pos hr]
    simp [Swap.kinds]
  -- what the receive and the reduction come to, in the last step and before
  obtain ⟨recvPtr, hrecv, hpair, hptr'⟩ : ∃ recvPtr,
      (if t = A.n - 2 then if !decide (A.sendBuf r = A.recvBuf) then A.recvBuf + offset A.count A.n r
        else deviceBuf x.index else deviceBuf x.index) = recvPtr ∧
      recvReducePair (A.sendBuf r + A.blockOff r (t + 1)) (A.blockLen r (t + 1)) (ringPrev A.n r) recvPtr
          (if t = A.n - 2 then A.recvBuf + offset A.count A.n r else recvPtr) =
        some (A.receive t r) ∧ (t + 2 < A.n → recvPtr = deviceBuf (t % 2)) := by
    refine ⟨_, rfl, ?_⟩
    rw [hindex]
    unfold receive recvReducePair
    by_cases hlast : t = A.n - 2
    · obtain ⟨hoff, hlen⟩ := block_last hr (show t + 2 = A.n by omega)
      simp only [if_pos hlast, if_pos (show t + 2 = A.n by omega), hoff, hlen]
      refine ⟨?_, fun h => absurd h (by omega)⟩
      by_cases heq : A.sendBuf r = A.recvBuf
      · simp only [heq, decide_true, Bool.not_true, Bool.false_eq_true, if_false, if_true]
        rw [if_neg fun hdev => A.recv_ne_alloc _ (congrArg CclBuffer.src hdev)]
      · simp only [heq, decide_false, Bool.not_false, if_true, if_false]
    · simp only [if_neg hlast, if_neg (show ¬ t + 2 = A.n by omega), if_true]
      exact ⟨trivial, fun _ => trivial⟩
  have hcnts : ∀ b, (if b = A.n - 1 then A.count / A.n + A.count % A.n else A.count / A.n) = size A.count A.n b :=
    fun _ => rfl
  unfold scatterLoop reduceScatterRingStep
  dsimp only
  rw [hsend, hrecv, hin1, hcnts, hcnts, hx, hs]
  rw [show size A.count A.n (ringBlock A.n r (t + 1)) = A.blockLen r (t + 1) from rfl, hpair]
  refine ⟨_, rfl, rfl, fun h => ⟨?_, hptr' h⟩, ?_, hentries _ _ rfl⟩
  · show (ringBlock A.n r (t + 1) + A.n - 1) % A.n = _
    rw [Nat.add_comm _ A.n]
    exact ringBlock_succ hr h
  · show x.index ^^^ 1 = _
    rw [hindex, mod_two_xor_one]

/-- **The reduce-scatter makes its rounds.** -/
theorem reduceScatterRingBlockingImpl_entries (check : Bool) (hn : 2 ≤ A.n) (hr : r < A.n) (s : Sched) :
    ∃ s', reduceScatterRingBlockingImpl check (A.sendBuf r) (A.recvBuf + r * (A.count / A.n)) A.count A.comm r s =
        some s' ∧ s'.entries = s.entries ++ (A.rounds (A.n - 1)).flatMap (· r) := by
  have hprev : (r + A.n - 1) % A.n = ringPrev A.n r := by
    rw [Nat.add_comm r, mod_ringPrev hr]
  have hnext : (r + 1) % A.n = ringNext A.n r := by
    rw [← mod_ringNext hr, Nat.add_assoc, Nat.add_mod_left]
  have hfirst : ringPrev A.n r = ringBlock A.n r 0 := by
    rw [← hprev]
    exact ringBlock_zero hr
  obtain ⟨x, hloop, -, -, -, -, hx⟩ := foldlM_range
    (f := A.scatterLoop r)
    (I := fun t x => x.s = ringBlock A.n r t ∧ (t + 1 < A.n → x.r = ringBlock A.n r (t + 1)) ∧
      x.index = t % 2 ∧ (t ≠ 0 → t + 1 < A.n → x.sendPtr = deviceBuf ((t + 1) % 2)) ∧
      x.sched.entries = s.entries ++ (A.rounds t).flatMap (· r))
    (m := A.n - 1)
    (s := ⟨ringPrev A.n r, (ringPrev A.n r + A.n - 1) % A.n, 0, .empty, s⟩)
    ⟨hfirst, fun h => by
      show (ringPrev A.n r + A.n - 1) % A.n = _
      rw [hfirst, Nat.add_comm _ A.n]
      exact ringBlock_succ hr h, rfl, fun h => absurd rfl h, (append_nil _).symm⟩
    (fun t ht x hI => by
      obtain ⟨h1, h2, h3, h4, h5⟩ := hI
      have ht' : t + 1 < A.n := by omega
      obtain ⟨x', hstep, g1, g2, g3, g4⟩ := reduceScatterRingStep_eq hr ht' h1 (h2 ht') h3 fun h0 => h4 h0 ht'
      refine ⟨x', hstep, g1, fun h => (g2 h).1, g3, fun _ h => ?_, ?_⟩
      · rw [(g2 h).2, Nat.add_assoc, Nat.add_mod_right]
      · rw [g4, h5, rounds, rounds, range_succ, map_append, flatMap_append, append_assoc]
        simp)
  refine ⟨x.sched, ?_, hx⟩
  unfold reduceScatterRingBlockingImpl
  dsimp only
  rw [isReduceScatterInplace_eq check (A.bufs r hr) hr, hprev, hnext, Nat.mul_comm r]
  exact congrArg (Option.bind · fun x => some x.sched) hloop

/-- **The allreduce makes its rounds.** -/
theorem allreduceRingBlocking_entries (check : Bool) (hn : 2 ≤ A.n) (hr : r < A.n) :
    ∃ s, allreduceRingBlocking check (A.sendBuf r) A.recvBuf A.count A.comm r (.new 0) = some s ∧
      s.entries = A.allRounds.flatMap (· r) := by
  obtain ⟨s₁, hrs, h₁⟩ := reduceScatterRingBlockingImpl_entries check hn hr (.new 0)
  obtain ⟨s₂, hag, h₂⟩ := allgathervRingBlocking_entries A.recvBuf check (ringRecvCounts A.count A.n) hn hr s₁
  refine ⟨s₂, ?_, ?_⟩
  · rw [sumTo_ringRecvCounts A.count hr, offset, Nat.mul_comm, ringRecvCounts_eq A.count hr] at hag
    unfold allreduceRingBlocking
    dsimp only
    rw [hrs]
    exact hag
  · rw [h₂, h₁, allRounds, flatMap_append]
    rfl

/-! ## The rounds are good -/

theorem receive_apart (hr : r < A.n) (ht : t + 1 < A.n) (dst : Nat) :
    (A.receive t r).Apart (.send (A.sent t r) (A.blockLen r t) dst) := by
  obtain ⟨i, hi⟩ := (A.bufs r hr).send_user
  have hb := ringBlock_lt hr (show t < A.n by omega)
  have hb' := ringBlock_lt hr ht
  have hne : ringBlock A.n r (t + 1) ≠ ringBlock A.n r t := fun he => absurd (ringBlock_inj ht (by omega) he) (by omega)
  have hord : A.blockOff r (t + 1) + A.blockLen r (t + 1) ≤ A.blockOff r t ∨
      A.blockOff r t + A.blockLen r t ≤ A.blockOff r (t + 1) := by
    rcases hne.lt_or_gt with h | h
    · exact .inl (ordered A.count h hb)
    · exact .inr (ordered A.count h hb')
  -- a place of the caller's buffers, and a half of the device buffer, against what is sent
  have huser : ∀ x : CclBuffer, (x = A.sendBuf r ∨ x = A.recvBuf) →
      PieceApart (x + A.blockOff r (t + 1), A.blockLen r (t + 1)) (A.sent t r, A.blockLen r t) := by
    intro x hx
    have hsrc : ∀ k, x.src ≠ .alloc 0 k := by
      intro k
      rcases hx with rfl | rfl
      · rw [hi]
        exact nofun
      · exact A.recv_ne_alloc k
    unfold sent
    by_cases h0 : t = 0
    · subst h0
      refine PieceApart.parts ?_ (block_le hr ht) (block_le hr (by omega)) hord
      rcases hx with rfl | rfl
      · exact .inl rfl
      · exact (A.bufs r hr).apart.imp Eq.symm PieceApart.symm
    · rw [if_neg h0]
      exact .inl (hsrc _)
  have hdev : PieceApart (deviceBuf (t % 2), A.blockLen r (t + 1)) (A.sent t r, A.blockLen r t) := by
    unfold sent
    split
    · refine .inl ?_
      show BufSrc.alloc 0 _ ≠ (A.sendBuf r).src
      rw [hi]
      exact nofun
    · exact .inl (deviceBuf_ne (by omega))
  unfold receive
  split
  · split
    all_goals
      refine ⟨fun p hp q hq => ?_, forall_mem_nil _⟩
      rw [mem_singleton.mp hq]
      rcases mem_pair.mp hp with rfl | rfl
    · exact huser _ (.inl rfl)
    · exact hdev
    · exact huser _ (.inl rfl)
    · exact huser _ (.inr rfl)
  · refine ⟨fun p hp q hq => ?_, forall_mem_nil _⟩
    rw [mem_singleton.mp hq]
    rcases mem_pair.mp hp with rfl | rfl
    · exact huser _ (.inl rfl)
    · exact hdev

theorem swap_good (ht : t + 1 < A.n) : SwapGood (A.swap t) A.n := by
  refine swapGood_ite (fun r hr => ?_) (fun r hr => ?_) (fun r hr => ?_) fun r hr => receive_apart hr ht _
  · unfold receive
    split
    · split <;> rfl
    · rfl
  · have hright := ringNext_lt hr
    have hlen := (block_prev hright ht).2
    rw [ringPrev_ringNext] at hlen
    exact ⟨hright, ringPrev_ringNext A.n r, hlen.symm⟩
  · exact ⟨ringPrev_lt hr, ringNext_ringPrev hr, (block_prev hr ht).2⟩

theorem allRounds_good {R : SchedRound} (hR : R ∈ A.allRounds) : ∃ kinds, KindsGood kinds A.n ∧ R = .ofKinds true kinds := by
  rcases mem_append.mp hR with hR | hR
  · obtain ⟨t, ht, rfl⟩ := mem_map.mp hR
    have ht := mem_range.mp ht
    exact ⟨_, (swap_good (show t + 1 < A.n by omega)).kindsGood false, rfl⟩
  · have hlt : A.n - 1 < A.n := Nat.sub_one_lt A.comm.size_pos.ne'
    exact GatherRing.rounds_good (ringBlocks_apart A.recvBuf (ringRecvCounts A.count A.n) A.n) hlt hR

/-! ## What the rounds compute -/

variable {α : Type} (op : α → α → α)

theorem pair_exec (ht : t + 1 < A.n) (σ : Nat → Mem α) (hr : r < A.n) :
    (A.round t).exec op σ r = (A.receive t r).run op
      (fun _ => load (A.sent t (ringPrev A.n r)) (A.blockLen r (t + 1)) (σ (ringPrev A.n r))) (σ r) := by
  rw [round, (swap_good ht).exec op true false σ (if_pos hr) (if_pos (ringPrev_lt hr))]
  rw [(block_prev hr ht).2]

theorem pair_exec_at [Std.Commutative op] (ht : t + 1 < A.n) (σ : Nat → Mem α) (hr : r < A.n)
    (hj : j < A.blockLen r (t + 1)) :
    (A.round t).exec op σ r ((A.out t r).at j) =
      op (σ r ((A.sendBuf r).at (A.blockOff r (t + 1) + j)))
        (σ (ringPrev A.n r) ((A.sent t (ringPrev A.n r)).at j)) := by
  have hcomm : ∀ x y, op x y = op y x := Std.Commutative.comm
  have hle := block_le hr ht
  have hdev : ∀ i c c' : Nat, PieceApart (A.sendBuf r + c, c') (deviceBuf i, c') := fun i c c' => by
    obtain ⟨k, hk⟩ := (A.bufs r hr).send_user
    refine .inl ?_
    show (A.sendBuf r).src ≠ .alloc 0 i
    rw [hk]
    exact nofun
  rw [pair_exec op ht σ hr, ← CclBuffer.add_at]
  unfold receive out
  by_cases hlast : t + 2 = A.n
  · simp only [if_pos hlast]
    by_cases heq : A.sendBuf r = A.recvBuf
    · -- in place the result replaces the rank's own data
      rw [if_pos heq, ← heq]
      exact EntryKind.run_recvReduce_local op (hdev _ _ _).symm.disjoint hj _ _ _ _
    · rw [if_neg heq, hcomm]
      exact EntryKind.run_recvReduce_comm op
        (((A.bufs r hr).apart.resolve_left heq).parts_of_apart hle hle).disjoint hj _ _ _ _
  · simp only [if_neg hlast]
    rw [hcomm]
    exact EntryKind.run_recvReduce_comm op (hdev _ _ _).disjoint hj _ _ _ _

theorem pair_exec_frame (ht : t + 2 < A.n) (σ : Nat → Mem α) (hr : r < A.n) {a : BufSrc × Nat}
    (ha : ∀ i, a.1 ≠ .alloc 0 i) : (A.round t).exec op σ r a = σ r a := by
  have hnot : ∀ c, a ∉ region (deviceBuf (t % 2)) c := fun c h => ha _ h.1
  rw [pair_exec op (by omega) σ hr, receive, if_neg (by omega)]
  show compReduce op _ _ (deviceBuf (t % 2)) (store (deviceBuf (t % 2)) _ (σ r)) a = σ r a
  rw [compReduce_of_notMem (hnot _), store_load_of_notMem (hnot _)]

section

variable [Std.Commutative op] [Std.Associative op]

/-- **Before step `t`**: what a rank sends is the reduction over the ranks its block has passed, and its own data is
untouched. -/
structure Holds (A : AllreduceCall) (mem : Nat → Mem α) (t : Nat) (σ : Nat → Mem α) : Prop where
  sent : ∀ r < A.n, ∀ j < A.blockLen r t,
    Reduces op (fun q => mem q ((A.sendBuf q).at (A.blockOff r t + j))) (ringTo A.n t r) (σ r ((A.sent t r).at j))
  own : ∀ r < A.n, ∀ i, σ r ((A.sendBuf r).at i) = mem r ((A.sendBuf r).at i)

variable {mem σ : Nat → Mem α}

theorem Holds.out (ht : t + 1 < A.n) (h : A.Holds op mem t σ) (hr : r < A.n) (hj : j < A.blockLen r (t + 1)) :
    Reduces op (fun q => mem q ((A.sendBuf q).at (A.blockOff r (t + 1) + j))) (ringTo A.n (t + 1) r)
      ((A.round t).exec op σ r ((A.out t r).at j)) := by
  rw [pair_exec_at op ht σ hr hj, h.own r hr]
  refine Reduces.ring_step hr (by omega) ?_
  have hsent := h.sent (ringPrev A.n r) (ringPrev_lt hr) j
  rw [(block_prev hr ht).1, (block_prev hr ht).2] at hsent
  exact hsent hj

/-- **One step** keeps it. -/
theorem Holds.step (ht : t + 2 < A.n) (h : A.Holds op mem t σ) : A.Holds op mem (t + 1) ((A.round t).exec op σ) := by
  refine ⟨fun r hr j hj => ?_, fun r hr i => ?_⟩
  · have hout := h.out op (by omega) hr hj
    have hbuf : A.sent (t + 1) r = A.out t r := by
      rw [AllreduceCall.sent, AllreduceCall.out, if_neg (Nat.succ_ne_zero t), if_neg (by omega), Nat.add_assoc,
        Nat.add_mod_right]
    rw [hbuf]
    exact hout
  · rw [pair_exec_frame op ht σ hr, h.own r hr]
    intro k hk
    obtain ⟨i', hi'⟩ := (A.bufs r hr).send_user
    exact nomatch hi'.symm.trans hk

/-- **A run** of steps keeps it. -/
theorem holds_run (mem : Nat → Mem α) {m : Nat} (hm : m + 2 ≤ A.n) :
    A.Holds op mem m (execRounds op (A.rounds m) mem) := by
  induction m with
  | zero =>
    refine ⟨fun r hr j hj => ?_, fun r hr i => rfl⟩
    show Reduces op _ {r} (mem r ((A.sendBuf r + A.blockOff r 0).at j))
    rw [CclBuffer.add_at]
    exact reduces_singleton (fun q => mem q ((A.sendBuf q).at (A.blockOff r 0 + j))) r
  | succ m ih =>
    rw [rounds, range_succ, map_append, map_singleton, execRounds_append]
    exact (ih (by omega)).step op (by omega)

/-- **The reduce-scatter leaves block `r` at rank `r`.** -/
theorem rounds_exec (hn : 2 ≤ A.n) (mem : Nat → Mem α) (hr : r < A.n) (hj : j < size A.count A.n r) :
    execRounds op (A.rounds (A.n - 1)) mem r (A.recvBuf.at (offset A.count A.n r + j)) =
      reduceRange op A.n fun q => mem q ((A.sendBuf q).at (offset A.count A.n r + j)) := by
  obtain ⟨m, hm⟩ : ∃ m, m + 2 = A.n := ⟨A.n - 2, by omega⟩
  obtain ⟨hoff, hlen⟩ := block_last hr hm
  have hout := (holds_run op mem hm.le).out op (by omega) hr (hlen.symm ▸ hj)
  rw [out, if_pos hm, CclBuffer.add_at, hoff, show m + 1 = A.n - 1 by omega, ringTo_top hr] at hout
  rw [show A.n - 1 = m + 1 by omega, rounds, range_succ, map_append, map_singleton, execRounds_append]
  exact hout.eq_reduceRange (by omega)

/-- **The rounds leave the reduction of all data at every rank.** -/
theorem allRounds_exec (hn : 2 ≤ A.n) (mem : Nat → Mem α) (hr : r < A.n) (hi : i < A.count) :
    execRounds op A.allRounds mem r (A.recvBuf.at i) = reduceRange op A.n fun q => mem q ((A.sendBuf q).at i) := by
  obtain ⟨b, hb, hlo, hhi⟩ := exists_part A.count (show 0 < A.n by omega) hi
  obtain ⟨j, rfl⟩ := Nat.exists_eq_add_of_le hlo
  have hj : j < size A.count A.n b := by omega
  have hgather := GatherRing.run_all op (ringBlocks_apart A.recvBuf (ringRecvCounts A.count A.n) A.n)
    (execRounds op (A.rounds (A.n - 1)) mem) hr hb (ringRecvCounts_eq A.count hb ▸ hj)
  dsimp only at hgather
  rw [sumTo_ringRecvCounts A.count hb] at hgather
  rw [allRounds, execRounds_append, hgather]
  exact rounds_exec op hn mem hb hj

end

end AllreduceCall

end OneCcl
