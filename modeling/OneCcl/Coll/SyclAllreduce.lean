import Mathlib.Tactic.Ring
import OneCcl.Coll.SyclScaleout
import OneCcl.Reduction.Parts

/-!
# The SYCL allreduce on several nodes

`allreduce_sycl_multi_node`. Each chunk is cut into full lines for every rank of a node and a remainder, which the last
rank of the node looks after. The ranks of a node reduce-scatter the chunk, the ranks at one place of their nodes reduce
their parts over the nodes, and the ranks of a node gather the chunk. The remainder goes with the block of the last rank where
the small kernels can do that, and else takes an allreduce and a broadcast of its own. A chunk that is all remainder is
reduced over all ranks at once.

What a chunk leaves is `allreduceChunk_right`.
-/

namespace OneCcl

open Reduction List CclBuffer Parts Split

variable {r k cnt x i len : Nat} {a : BufSrc × Nat} {c : Nat × Nat}

/-! ## The function -/

/-- What the caller passes: for `avg` the reduction between the ranks is the sum, and the result is divided at the end. -/
structure SyclAllreduce (α : Type) where
  env : SyclEnv
  place : Placement
  dtype : Dtype
  op : α → α → α
  comm : Std.Commutative op
  assoc : Std.Associative op
  average : Option (Nat → α → α)
  sendBuf : Nat → CclBuffer
  recvBuf : Nat → CclBuffer
  count : Nat

namespace SyclAllreduce

attribute [instance] comm assoc

variable {α : Type} (A : SyclAllreduce α)

/-- `do_fallback_to_scheduler`. -/
def doFallbackToScheduler : Bool :=
  A.count * A.dtype.size > A.env.allreduceScaleoutThreshold || A.env.esimd ||
    (A.env.transport = .ofi && (A.env.allreduceScaleoutAlgo = none || A.env.allreduceScaleoutAlgo = some .direct))

/-- `counts_per_line`. -/
def countsPerLine : Nat := A.env.lineSize / A.dtype.size

/-- `max_iter_count`. -/
def maxIterCount : Nat :=
  if A.count * A.dtype.size ≤ A.env.deviceBufInt then A.count
  else A.env.deviceBufInt / A.dtype.size / A.countsPerLine / A.place.ppn * A.countsPerLine * A.place.ppn

/-- `counts_per_rank`. -/
def countsPerRank (iterCount : Nat) : Nat := iterCount / A.countsPerLine / A.place.ppn * A.countsPerLine

/-- `remainder_count`. -/
def remainderCount (iterCount : Nat) : Nat :=
  iterCount % A.countsPerLine + iterCount / A.countsPerLine % A.place.ppn * A.countsPerLine

/-- `is_rs_remainder_supported`. -/
def isRsRemainderSupported (recvCount remCount : Nat) : Bool :=
  remCount ≠ 0 && (recvCount * A.place.ppn + remCount) * A.dtype.size ≤ A.env.reduceScatterSmallThreshold

/-- `is_ag_remainder_supported`. -/
def isAgRemainderSupported (sendCount remCount : Nat) : Bool :=
  remCount ≠ 0 && (sendCount + remCount) * A.dtype.size ≤ A.env.allgathervSmallThreshold

/-- `sycl_average`, where the reduction is `avg`. -/
def averageAt (buf : Nat → CclBuffer) (cnt : Nat → Nat) (w : World α) : World α :=
  syclAverage A.average A.place.size buf cnt w

section

variable (sendBuf recvBuf : Nat → CclBuffer) (iterCount : Nat)

/-- `recv_rank_ptr`. -/
def recvRankPtr (r : Nat) : CclBuffer := recvBuf r + A.place.localRank r * A.countsPerRank iterCount

/-- `scaleout_counts`. -/
def scaleoutCounts (r : Nat) : Nat :=
  if A.place.localRank r = A.place.ppn - 1 then A.countsPerRank iterCount + A.remainderCount iterCount
  else A.countsPerRank iterCount

/-- `allreduce_sycl_multi_node_rs_phase`. -/
def rsPhase (w : World α) : World α :=
  let cpr := A.countsPerRank iterCount
  let rem := A.remainderCount iterCount
  if A.isRsRemainderSupported cpr rem then
    A.place.nodeComm.reduceScatter A.op sendBuf (A.recvRankPtr recvBuf iterCount) cpr rem w
  else
    let w := A.place.nodeComm.reduceScatter A.op sendBuf (A.recvRankPtr recvBuf iterCount) cpr 0 w
    if rem ≠ 0 then
      A.place.nodeComm.allreduce A.op (fun r => sendBuf r + (iterCount - rem)) (fun r => recvBuf r + (iterCount - rem))
        (fun _ => rem) w
    else w

/-- `allreduce_sycl_multi_node_ag_phase`. -/
def agPhase (w : World α) : World α :=
  let cpr := A.countsPerRank iterCount
  let rem := A.remainderCount iterCount
  let last := A.place.ppn - 1
  if A.isAgRemainderSupported cpr rem then
    let recvCounts := fun k => if k = last then cpr + rem else cpr
    A.place.nodeComm.allgatherv (A.recvRankPtr recvBuf iterCount) recvBuf recvCounts (sumTo recvCounts) w
  else
    let w := A.place.nodeComm.allgatherv (A.recvRankPtr recvBuf iterCount) recvBuf (fun _ => cpr)
      (sumTo fun _ => cpr) w
    if rem ≠ 0 then
      A.place.nodeComm.broadcast (fun r => recvBuf r + (iterCount - rem)) (fun r => recvBuf r + (iterCount - rem)) rem last w
    else w

/-- A chunk that is all remainder, which ends the function. -/
def remainderChunk (w : World α) : Outcome (World α) :=
  if A.env.transport = .ofi then .fallback w
  else
    match gate A.place.size (fun _ => A.env.allreduceScaleoutDone .direct A.dtype.size A.place.size iterCount) w
      (.ok (A.averageAt recvBuf (fun _ => iterCount)
        ((whole A.place.size).allreduce A.op sendBuf recvBuf (fun _ => iterCount) w))) with
    | .ok w => .done w
    | .error out => out

def scaleUp (w : World α) : World α := if A.place.ppn > 1 then A.rsPhase sendBuf recvBuf iterCount w else w

/-- The scale-out allreduce, and the average. -/
def scaleOut (w : World α) : World α :=
  let scaleoutSendPtr := if A.place.ppn > 1 then A.recvRankPtr recvBuf iterCount else sendBuf
  A.averageAt (A.recvRankPtr recvBuf iterCount) (A.scaleoutCounts iterCount)
    (A.place.r2rComm.allreduce A.op scaleoutSendPtr (A.recvRankPtr recvBuf iterCount) (A.scaleoutCounts iterCount) w)

def scaleOutDone (r : Nat) : Bool :=
  let algo := A.env.allreduceSelectAlgo (A.countsPerRank iterCount * A.dtype.size) A.place.nodes A.dtype.kind
  A.env.allreduceScaleoutDone algo A.dtype.size A.place.nodes (A.scaleoutCounts iterCount r)

/-- Reduce-scatter on the nodes, allreduce between them, allgather on the nodes. -/
def fullChunk (w : World α) : Except (Outcome (World α)) (World α) :=
  let w := A.scaleUp sendBuf recvBuf iterCount w
  gate A.place.size (A.scaleOutDone iterCount) w
    (let w := A.scaleOut sendBuf recvBuf iterCount w
     .ok (if A.place.ppn > 1 then A.agPhase recvBuf iterCount w else w))

end

def chunk (c : Nat × Nat) (w : World α) : Except (Outcome (World α)) (World α) :=
  let sendBuf := fun r => A.sendBuf r + c.1
  let recvBuf := fun r => A.recvBuf r + c.1
  if A.countsPerRank c.2 = 0 ∧ A.remainderCount c.2 ≠ 0 then .error (A.remainderChunk sendBuf recvBuf c.2 w)
  else A.fullChunk sendBuf recvBuf c.2 w

/-- `allreduce_sycl_multi_node`. -/
def run (w : World α) : Outcome (World α) :=
  if A.place.nodes = 1 then
    .done (A.averageAt A.recvBuf (fun _ => A.count)
      ((whole A.place.size).allreduce A.op A.sendBuf A.recvBuf (fun _ => A.count) w))
  else if A.doFallbackToScheduler then .fallback w
  else if A.env.lineSize % A.dtype.size ≠ 0 ∨ A.countsPerLine = 0 ∨ A.maxIterCount = 0 then .stopped
  else runChunks A.chunk (chunks A.count A.maxIterCount) w

/-! ## A chunk -/

section

variable {A} {s b : Nat → CclBuffer} {iter : Nat}

variable (A) in
theorem countsPerRank_mul_add (iter : Nat) : A.countsPerRank iter * A.place.ppn + A.remainderCount iter = iter := by
  have hlines := Nat.div_add_mod (iter / A.countsPerLine) A.place.ppn
  have hcounts := Nat.div_add_mod iter A.countsPerLine
  calc iter / A.countsPerLine / A.place.ppn * A.countsPerLine * A.place.ppn +
        (iter % A.countsPerLine + iter / A.countsPerLine % A.place.ppn * A.countsPerLine)
      = A.countsPerLine * (A.place.ppn * (iter / A.countsPerLine / A.place.ppn) + iter / A.countsPerLine % A.place.ppn) +
          iter % A.countsPerLine := by ring
    _ = iter := by rw [hlines, hcounts]

/-- The length of the block that rank `k` of a node looks after. -/
def blockLen (A : SyclAllreduce α) (iter k : Nat) : Nat :=
  if k = A.place.ppn - 1 then A.countsPerRank iter + A.remainderCount iter else A.countsPerRank iter

/-- What the ranks of a node have at an index of their buffers, reduced. -/
def onNode (A : SyclAllreduce α) (s : Nat → CclBuffer) (w : World α) (r x : Nat) : α :=
  reduceRange A.op A.place.ppn fun k => w (A.place.nodeComm.member r k) ((s (A.place.nodeComm.member r k)).at x)

variable (iter) in
theorem block_le_remainder (hk : k < A.place.ppn) :
    k * A.countsPerRank iter + A.countsPerRank iter ≤ iter - A.remainderCount iter := by
  have hsplit := A.countsPerRank_mul_add iter
  have hmul := row_le hk (A.countsPerRank iter)
  rw [Nat.mul_comm A.place.ppn] at hmul
  omega

theorem remainder_le : iter - A.remainderCount iter + A.remainderCount iter ≤ iter := by
  have := A.countsPerRank_mul_add iter
  omega

theorem block_le (hk : k < A.place.ppn) : k * A.countsPerRank iter + A.blockLen iter k ≤ iter := by
  have hle := block_le_remainder iter hk
  have hrem := A.countsPerRank_mul_add iter
  unfold blockLen
  split <;> omega

/-- What a block has behind the lines of its rank is the remainder. -/
theorem last_of_le (hi : i < A.blockLen iter k) (hge : A.countsPerRank iter ≤ i) : k = A.place.ppn - 1 ∧
    i < A.countsPerRank iter + A.remainderCount iter ∧
      k * A.countsPerRank iter + A.countsPerRank iter = iter - A.remainderCount iter := by
  unfold blockLen at hi
  split at hi
  next hlast =>
    have hsplit := A.countsPerRank_mul_add iter
    refine ⟨hlast, hi, ?_⟩
    rw [hlast, ← Nat.succ_mul, Nat.succ_eq_add_one, Nat.sub_add_cancel A.place.ppn_pos, Nat.mul_comm]
    omega
  next => omega

theorem writeAt_send {s b : CclBuffer} (h : s = b ∨ s.src ≠ b.src) (hx : x < k ∨ k + cnt ≤ x) (f : Nat → α)
    (m : Mem α) : writeAt (b + k) cnt f m (s.at x) = m (s.at x) := by
  rcases h with rfl | h
  · rw [writeAt_add_at, if_neg (by omega)]
  · exact writeAt_of_notMem fun hc => h hc.1

variable (hbuf : ∀ r, s r = b r ∨ (s r).src ≠ (b r).src)

variable {w : World α}

include hbuf in
/-- **After the reduce-scatter phase** a rank has its block, reduced over its node. -/
theorem rsPhase_at (hr : r < A.place.size) (hi : i < A.scaleoutCounts iter r) :
    A.rsPhase s b iter w r ((A.recvRankPtr b iter r).at i) =
      A.onNode s w r (A.place.localRank r * A.countsPerRank iter + i) := by
  unfold rsPhase
  split
  · -- the remainder comes with the block of the last rank
    exact (writeAt_at ..).trans (if_pos hi)
  have hsum : (A.recvRankPtr b iter r).at i = (b r).at (A.place.localRank r * A.countsPerRank iter + i) :=
    add_at ..
  rcases lt_or_ge i (A.countsPerRank iter) with hlt | hge
  · -- in front of the remainder
    have hrs : A.place.nodeComm.reduceScatter A.op s (A.recvRankPtr b iter) (A.countsPerRank iter) 0 w r
        ((A.recvRankPtr b iter r).at i) = A.onNode s w r (A.place.localRank r * A.countsPerRank iter + i) := by
      refine (writeAt_at ..).trans (if_pos ?_)
      split <;> omega
    split
    · rw [← hrs, hsum]
      refine (writeAt_add_at ..).trans (if_neg ?_)
      have := block_le_remainder iter (A.place.localRank_lt hr)
      omega
    · exact hrs
  · -- in the remainder of the last rank
    obtain ⟨-, hi, hend⟩ := last_of_le hi hge
    rw [if_pos (by omega), hsum]
    refine (writeAt_add_at ..).trans ((if_pos ⟨by omega, show _ < _ + A.remainderCount iter by omega⟩).trans ?_)
    refine reduceRange_congr A.place.ppn_pos fun k hk => ?_
    rw [add_at, Nat.add_sub_cancel' (by omega)]
    refine writeAt_send (hbuf _) (.inr ?_) _ _
    rw [Nat.add_zero, ite_self]
    have := block_le_remainder iter (A.place.localRank_lt (A.place.nodeComm.member_lt r hr k hk))
    omega

theorem notMem_part {b : CclBuffer} (h : k + cnt ≤ len) (ha : a ∉ region b len) : a ∉ region (b + k) cnt := by
  rintro ⟨hsrc, hlo, hhi⟩
  rw [add_offset] at hlo hhi
  exact ha ⟨hsrc, by omega, by omega⟩

theorem writeAt_part {b : CclBuffer} (h : k + cnt ≤ len) {f : Nat → α} {m : Mem α} (ha : a ∉ region b len) :
    writeAt (b + k) cnt f m a = m a := writeAt_of_notMem (notMem_part h ha)

theorem rsPhase_only (hr : r < A.place.size) (ha : a ∉ region (b r) iter) : A.rsPhase s b iter w r a = w r a := by
  have hlocal := A.place.localRank_lt hr
  unfold rsPhase
  split
  · exact writeAt_part (block_le hlocal) ha
  next =>
    have hrs : A.place.nodeComm.reduceScatter A.op s (A.recvRankPtr b iter) (A.countsPerRank iter) 0 w r a = w r a := by
      refine writeAt_part ?_ ha
      rw [Nat.add_zero, ite_self]
      exact (block_le_remainder iter hlocal).trans (Nat.sub_le ..)
    split
    · exact (writeAt_part remainder_le ha).trans hrs
    · exact hrs

def finish (A : SyclAllreduce α) (x : α) : α := averaged A.average A.place.size x

theorem averageAt_at {buf : Nat → CclBuffer} (cnt : Nat → Nat) (hi : i < cnt r) :
    A.averageAt buf cnt w r ((buf r).at i) = A.finish (w r ((buf r).at i)) := syclAverage_at buf hi

theorem sumTo_blockLen (hk : k < A.place.ppn) : sumTo (A.blockLen iter) k = k * A.countsPerRank iter := by
  induction k with
  | zero => exact (Nat.zero_mul _).symm
  | succ k ih => rw [sumTo, ih (by omega), blockLen, if_neg (by omega), Nat.succ_mul]

theorem sumTo_const (c k : Nat) : sumTo (fun _ => c) k = k * c := by
  induction k with
  | zero => exact (Nat.zero_mul _).symm
  | succ k ih => rw [sumTo, ih, Nat.succ_mul]

theorem exists_block (hx : x < iter) : ∃ k < A.place.ppn, ∃ i < A.blockLen iter k, x = k * A.countsPerRank iter + i := by
  have hsplit := A.countsPerRank_mul_add iter
  have hppn := A.place.ppn_pos
  rcases lt_or_ge x (A.countsPerRank iter * A.place.ppn) with hlt | hge
  · have hcpr : 0 < A.countsPerRank iter := Nat.pos_of_ne_zero fun h => by simp [h] at hlt
    refine ⟨x / A.countsPerRank iter, Nat.div_lt_of_lt_mul hlt, x % A.countsPerRank iter, ?_, (Nat.div_add_mod' ..).symm⟩
    have := Nat.mod_lt x hcpr
    unfold blockLen
    split <;> omega
  · have hlast : (A.place.ppn - 1) * A.countsPerRank iter + A.countsPerRank iter = A.countsPerRank iter * A.place.ppn := by
      rw [← Nat.succ_mul, Nat.succ_eq_add_one, Nat.sub_add_cancel hppn, Nat.mul_comm]
    refine ⟨A.place.ppn - 1, by omega, x - (A.place.ppn - 1) * A.countsPerRank iter, ?_, by omega⟩
    rw [blockLen, if_pos rfl]
    omega

/-- **The allgather phase** brings every block of the node to every rank. -/
theorem agPhase_at (hr : r < A.place.size) (hk : k < A.place.ppn) (hi : i < A.blockLen iter k) :
    A.agPhase b iter w r ((b r).at (k * A.countsPerRank iter + i)) =
      w (A.place.nodeComm.member r k) ((A.recvRankPtr b iter (A.place.nodeComm.member r k)).at i) := by
  have hdisj : ∀ cnts : Nat → Nat, ∀ j < A.place.nodeComm.size, ∀ k < A.place.nodeComm.size, j ≠ k →
      sumTo cnts j + cnts j ≤ sumTo cnts k ∨ sumTo cnts k + cnts k ≤ sumTo cnts j :=
    fun cnts j _ k _ hne => hne.lt_or_gt.imp (sumTo_ordered cnts) (sumTo_ordered cnts)
  have hle := block_le_remainder iter hk
  unfold agPhase
  split
  · rw [← sumTo_blockLen hk]
    exact allgatherv_at (hdisj _) hk hi
  rcases lt_or_ge i (A.countsPerRank iter) with hlt | hge
  · have hag : A.place.nodeComm.allgatherv (A.recvRankPtr b iter) b (fun _ => A.countsPerRank iter)
        (sumTo fun _ => A.countsPerRank iter) w r ((b r).at (k * A.countsPerRank iter + i)) =
          w (A.place.nodeComm.member r k) ((A.recvRankPtr b iter (A.place.nodeComm.member r k)).at i) := by
      rw [← sumTo_const (A.countsPerRank iter) k]
      exact allgatherv_at (hdisj _) hk hlt
    split
    · rw [← hag]
      exact (writeAt_add_at ..).trans (if_neg (by omega))
    · exact hag
  · -- in the remainder, which the last rank broadcasts
    obtain ⟨hlast, hi, hend⟩ := last_of_le hi hge
    rw [if_pos (by omega)]
    refine (writeAt_add_at ..).trans ((if_pos (by omega)).trans ?_)
    rw [← hlast, recvRankPtr, A.place.localRank_nodeMember hr hk, add_at, add_at,
      Nat.add_sub_cancel' (by omega)]
    refine allgatherv_of_notMem fun j hj hc => ?_
    rw [at_mem_region_add, sumTo_const] at hc
    have := block_le_remainder iter (show j < A.place.ppn from hj)
    omega

theorem agPhase_only (ha : a ∉ region (b r) iter) : A.agPhase b iter w r a = w r a := by
  unfold agPhase
  split
  · refine allgatherv_of_notMem fun k hk => notMem_part ?_ ha
    show sumTo (A.blockLen iter) k + A.blockLen iter k ≤ iter
    rw [sumTo_blockLen hk]
    exact block_le hk
  next =>
    have hag : A.place.nodeComm.allgatherv (A.recvRankPtr b iter) b (fun _ => A.countsPerRank iter)
        (sumTo fun _ => A.countsPerRank iter) w r a = w r a := by
      refine allgatherv_of_notMem fun k hk => notMem_part ?_ ha
      rw [sumTo_const]
      exact (block_le_remainder iter hk).trans (Nat.sub_le ..)
    split
    · exact (writeAt_part remainder_le ha).trans hag
    · exact hag

include hbuf in
theorem scaleUp_at (hr : r < A.place.size) (hi : i < A.scaleoutCounts iter r) :
    A.scaleUp s b iter w r (((if A.place.ppn > 1 then A.recvRankPtr b iter else s) r).at i) =
      A.onNode s w r (A.place.localRank r * A.countsPerRank iter + i) := by
  unfold scaleUp
  by_cases hppn : A.place.ppn > 1
  · rw [if_pos hppn, if_pos hppn]
    exact rsPhase_at hbuf hr hi
  · obtain ⟨hone, hzero, hself⟩ := Placement.alone_of_ppn hr hppn
    rw [if_neg hppn, if_neg hppn, hzero, Nat.zero_mul, Nat.zero_add, onNode, hone]
    show _ = w (A.place.nodeComm.member r 0) _
    rw [hself]

theorem scaleUp_only (hr : r < A.place.size) (ha : a ∉ region (b r) iter) : A.scaleUp s b iter w r a = w r a := by
  unfold scaleUp
  split
  · exact rsPhase_only hr ha
  · rfl

include hbuf in
/-- **After the scale-out** a rank has its block of the result. -/
theorem scaleOut_at (hr : r < A.place.size) (hlocal : A.place.localRank r = k) (hi : i < A.blockLen iter k) :
    A.scaleOut s b iter (A.scaleUp s b iter w) r ((A.recvRankPtr b iter r).at i) =
      A.finish (reduceRange A.op A.place.size fun r' => w r' ((s r').at (k * A.countsPerRank iter + i))) := by
  subst hlocal
  refine (averageAt_at (A.scaleoutCounts iter) hi).trans (congrArg A.finish ?_)
  refine ((writeAt_at ..).trans (if_pos hi)).trans ?_
  rw [← Placement.reduce_grid hr]
  refine reduceRange_congr A.place.nodes_pos fun j hj => ?_
  rw [← Placement.localRank_r2rMember hr hj] at hi ⊢
  exact scaleUp_at hbuf (A.place.r2rComm.member_lt r hr j hj) hi

theorem scaleOut_only (hr : r < A.place.size) (ha : a ∉ region (b r) iter) : A.scaleOut s b iter w r a = w r a := by
  have hpart : a ∉ region (A.recvRankPtr b iter r) (A.scaleoutCounts iter r) :=
    notMem_part (block_le (A.place.localRank_lt hr)) ha
  exact (syclAverage_of_notMem hpart).trans (writeAt_of_notMem hpart)

include hbuf in
/-- **A full chunk computes its part of the result**, when every rank's scale-out reports that it is done. -/
theorem fullChunk_right (hdone : ∀ r < A.place.size, A.scaleOutDone iter r = true) (w : World α) :
    ∃ w', A.fullChunk s b iter w = .ok w' ∧ (∀ r < A.place.size, ∀ a, a ∉ region (b r) iter → w' r a = w r a) ∧
      ∀ r < A.place.size, ∀ x < iter, w' r ((b r).at x) =
        A.finish (reduceRange A.op A.place.size fun r' => w r' ((s r').at x)) := by
  refine ⟨_, if_pos hdone, fun r hr a ha => ?_, fun r hr x hx => ?_⟩
  · have hout := (scaleOut_only (s := s) hr ha).trans (scaleUp_only (s := s) (w := w) hr ha)
    split
    · exact (agPhase_only ha).trans hout
    · exact hout
  · obtain ⟨k, hk, i, hi, rfl⟩ := exists_block (A := A) hx
    split
    · refine (agPhase_at hr hk hi).trans ?_
      exact scaleOut_at hbuf (A.place.nodeComm.member_lt r hr k hk) (A.place.localRank_nodeMember hr hk) hi
    · have hlocal : A.place.localRank r = k := by
        have := A.place.localRank_lt hr
        omega
      have hat := scaleOut_at hbuf (w := w) hr hlocal hi
      rwa [recvRankPtr, add_at, hlocal] at hat

end

/-! ## The loop -/

/-- The buffers are the caller's, and those of a rank are one buffer, or two that do not overlap. -/
structure Buffers : Prop where
  send : ∀ r, (A.sendBuf r).src.IsUser
  recv : ∀ r, (A.recvBuf r).src.IsUser
  apart : ∀ r, A.sendBuf r = A.recvBuf r ∨ (A.sendBuf r).src ≠ (A.recvBuf r).src

def result (w : World α) (_ i : Nat) : α :=
  A.finish (reduceRange A.op A.place.size fun r => w r ((A.sendBuf r).at i))

/-- Every rank has the result in its receive buffer. -/
def Right (w w' : World α) : Prop :=
  ∀ r < A.place.size, ∀ i < A.count, w' r ((A.recvBuf r).at i) = A.result w r i

def RemainderOnly (c : Nat × Nat) : Prop := A.countsPerRank c.2 = 0 ∧ A.remainderCount c.2 ≠ 0

instance (c : Nat × Nat) : Decidable (A.RemainderOnly c) := inferInstanceAs (Decidable (_ ∧ _))

/-- The scale-out of a chunk reports on every rank that it is done. -/
def ChunkDone (c : Nat × Nat) : Prop :=
  (A.RemainderOnly c → A.env.allreduceScaleoutDone .direct A.dtype.size A.place.size c.2 = true) ∧
    (¬ A.RemainderOnly c → ∀ r < A.place.size, A.scaleOutDone c.2 r = true)

/-- A chunk that goes through: the OFI transport cannot reduce one that is all remainder. -/
def Passes (c : Nat × Nat) : Prop := (A.RemainderOnly c → A.env.transport ≠ .ofi) ∧ A.ChunkDone c

variable {A}

theorem elementwise_result (hbuf : A.Buffers) (len : Nat) : Elementwise A.place.size len A.recvBuf A.result := by
  intro c w w' _ honly r _ i _ hi
  refine congrArg A.finish (reduceRange_congr A.place.size_pos fun r' hr' => ?_)
  refine honly r' hr' _ (hbuf.send r') fun hc => ?_
  rcases hbuf.apart r' with heq | hne
  · rw [heq, at_mem_region_add] at hc
    omega
  · exact hne hc.1

variable {w w' : World α}

theorem chunkRight_of_at (honly : ∀ r < A.place.size, ∀ a, a ∉ region (A.recvBuf r + c.1) c.2 → w' r a = w r a)
    (hat : ∀ r < A.place.size, ∀ x < c.2, w' r ((A.recvBuf r + c.1).at x) =
      A.finish (reduceRange A.op A.place.size fun r' => w r' ((A.sendBuf r' + c.1).at x))) :
    ChunkRight A.place.size A.recvBuf A.result c w w' := by
  refine ⟨fun r hr a _ => honly r hr a, fun r hr i hlo hhi => ?_⟩
  have h := hat r hr (i - c.1) (by omega)
  simp only [add_at, Nat.add_sub_cancel' hlo] at h
  exact h

theorem Buffers.apart_add (hbuf : A.Buffers) (k r : Nat) :
    A.sendBuf r + k = A.recvBuf r + k ∨ (A.sendBuf r + k).src ≠ (A.recvBuf r + k).src :=
  (hbuf.apart r).imp_left (congrArg fun b : CclBuffer => b + k)

theorem chunk_full (hbuf : A.Buffers) (hfull : ¬ A.RemainderOnly c) (hdone : A.ChunkDone c) (w : World α) :
    ∃ w', A.chunk c w = .ok w' ∧ ChunkRight A.place.size A.recvBuf A.result c w w' := by
  obtain ⟨w', hw', honly, hat⟩ := fullChunk_right (hbuf.apart_add c.1) (hdone.2 hfull) w
  exact ⟨w', (if_neg hfull).trans hw', chunkRight_of_at honly hat⟩

theorem chunk_remainder (hrem : A.RemainderOnly c) (hmpi : A.env.transport ≠ .ofi) (hdone : A.ChunkDone c)
    (w : World α) : ∃ w', A.chunk c w = .error (.done w') ∧ ChunkRight A.place.size A.recvBuf A.result c w w' := by
  refine ⟨A.averageAt (fun r => A.recvBuf r + c.1) (fun _ => c.2) ((whole A.place.size).allreduce A.op
    (fun r => A.sendBuf r + c.1) (fun r => A.recvBuf r + c.1) (fun _ => c.2) w), ?_, ?_⟩
  · refine (if_pos hrem).trans (congrArg Except.error ?_)
    unfold remainderChunk gate
    rw [if_neg hmpi, if_pos fun _ _ => hdone.1 hrem]
  · refine chunkRight_of_at (fun r _ a ha => ?_) fun r _ x hx => ?_
    · exact (syclAverage_of_notMem ha).trans (writeAt_of_notMem ha)
    · refine (averageAt_at _ hx).trans (congrArg A.finish ?_)
      exact (writeAt_at ..).trans (if_pos hx)

theorem chunk_remainder_ofi (hrem : A.RemainderOnly c) (hofi : A.env.transport = .ofi) (w : World α) :
    A.chunk c w = .error (.fallback w) := by
  refine (if_pos hrem).trans (congrArg Except.error ?_)
  exact if_pos hofi

variable (A)

/-- `nchunks`. -/
def nchunks : Int := asInt ((A.count + A.maxIterCount - 1) / A.maxIterCount)

/-- A call: elements to reduce, and lines of whole elements. -/
structure Call : Prop where
  count : 0 < A.count
  line_pos : 0 < A.env.lineSize
  line : A.dtype.size ∣ A.env.lineSize
  buffers : A.Buffers

/-- A call that comes to the loop over the chunks. -/
structure Loops : Prop extends A.Call where
  nodes : 2 ≤ A.place.nodes
  go : A.doFallbackToScheduler = false
  max_pos : 0 < A.maxIterCount

/-- A call on several nodes, with a device buffer, below 2 GiB, that holds a line of every rank of a node. -/
structure Domain : Prop extends A.Call where
  nodes : 2 ≤ A.place.nodes
  device : A.env.deviceBufSize < 2 ^ 31
  holds : A.env.lineSize * A.place.ppn ≤ A.env.deviceBufSize

/-- The call is left to the scheduler: from the start, or for a last chunk that is all remainder, which the OFI transport
cannot reduce directly. -/
def FallsBack : Prop :=
  A.doFallbackToScheduler = true ∨ A.env.transport = .ofi ∧ ∃ c ∈ chunks A.count A.maxIterCount, A.RemainderOnly c

variable {A}

theorem Call.countsPerLine_pos (h : A.Call) : 0 < A.countsPerLine :=
  Nat.div_pos (Nat.le_of_dvd h.line_pos h.line) A.dtype.size_pos

theorem Call.maxIterCount_full (h : A.Call) (hmax : 0 < A.maxIterCount) (hne : A.maxIterCount ≠ A.count) :
    0 < A.countsPerRank A.maxIterCount := by
  have hcpl := h.countsPerLine_pos
  unfold maxIterCount at hmax hne ⊢
  split at hne
  · exact absurd rfl hne
  next hbig =>
    rw [if_neg hbig] at hmax ⊢
    rw [countsPerRank, Nat.mul_right_comm, Nat.mul_div_cancel _ hcpl, Nat.mul_div_cancel _ A.place.ppn_pos]
    exact Nat.mul_pos (Nat.pos_of_mul_pos_right (Nat.pos_of_mul_pos_right hmax)) hcpl

theorem Domain.maxIterCount_pos (h : A.Domain) : 0 < A.maxIterCount := by
  have hcpl := h.countsPerLine_pos
  unfold maxIterCount
  split
  · exact h.count
  · rw [SyclEnv.deviceBufInt_of_lt h.device]
    have hline : A.countsPerLine * A.place.ppn ≤ A.env.deviceBufSize / A.dtype.size := by
      refine (Nat.le_div_iff_mul_le A.dtype.size_pos).mpr ?_
      calc A.countsPerLine * A.place.ppn * A.dtype.size
          = A.countsPerLine * A.dtype.size * A.place.ppn := Nat.mul_right_comm ..
        _ = A.env.lineSize * A.place.ppn := by rw [countsPerLine, Nat.div_mul_cancel h.line]
        _ ≤ A.env.deviceBufSize := h.holds
    have hq : 0 < A.env.deviceBufSize / A.dtype.size / A.countsPerLine / A.place.ppn := by
      rw [Nat.div_div_eq_div_mul]
      exact Nat.div_pos hline (Nat.mul_pos hcpl A.place.ppn_pos)
    exact Nat.mul_pos (Nat.mul_pos hq hcpl) A.place.ppn_pos

theorem run_fallback (hnodes : 2 ≤ A.place.nodes) (hfall : A.doFallbackToScheduler = true) (w : World α) :
    A.run w = .fallback w := by
  unfold run
  rw [if_neg (by omega), if_pos hfall]

theorem Loops.run_eq (h : A.Loops) (w : World α) : A.run w = runChunks A.chunk (chunks A.count A.maxIterCount) w := by
  have hnodes := h.nodes
  unfold run
  rw [if_neg (by omega), if_neg (ne_true_of_eq_false h.go), if_neg]
  rintro (hl | hl | hl)
  · exact hl (Nat.mod_eq_zero_of_dvd h.line)
  · exact h.countsPerLine_pos.ne' hl
  · exact h.max_pos.ne' hl

theorem Call.chunks_full (h : A.Call) (hmax : 0 < A.maxIterCount) (hpos : 0 < A.nchunks) :
    ∃ fulls last, chunks A.count A.maxIterCount = fulls ++ [last] ∧ ∀ c ∈ fulls, ¬ A.RemainderOnly c := by
  obtain ⟨m, hm, heq⟩ := chunks_eq hmax hpos
  refine ⟨_, _, heq, fun c hc hrem => ?_⟩
  obtain ⟨i, hi, rfl⟩ := mem_map.mp hc
  refine absurd hrem.1 ((h.maxIterCount_full hmax fun hmax => ?_).ne')
  -- one chunk is enough for the whole call
  have := mem_range.mp hi
  have := Nat.mul_le_mul_right A.maxIterCount (show 1 ≤ m by omega)
  omega

/-- **The chunks in front of one, and the world they leave to it.** -/
theorem Loops.run_split (h : A.Loops) (hpos : 0 < A.nchunks) {pre post : List (Nat × Nat)}
    (heq : chunks A.count A.maxIterCount = pre ++ c :: post) (hpre : ∀ c ∈ pre, A.ChunkDone c) (w : World α) :
    ∃ w', ChunkRight A.place.size A.recvBuf A.result (0, c.1) w w' ∧ A.run w = runChunks A.chunk (c :: post) w' := by
  have htiles := (chunks_tile h.max_pos hpos).1
  obtain ⟨fulls, last, hfulls, hrem⟩ := h.chunks_full h.max_pos hpos
  rw [heq] at htiles hfulls
  obtain ⟨ht, hnext⟩ := htiles.split
  have hle := hnext.le
  have hfull : ∀ c ∈ pre, ¬ A.RemainderOnly c := by
    intro c' hc'
    have hdrop := congrArg dropLast hfulls
    rw [dropLast_concat, dropLast_append_of_ne_nil (cons_ne_nil c post)] at hdrop
    exact hrem c' (hdrop ▸ mem_append_left _ hc')
  obtain ⟨w', hright, hrun⟩ := runChunks_append (elementwise_result h.buffers A.count) h.buffers.recv ht (by omega)
    (fun c hc w => chunk_full h.buffers (hfull c hc) (hpre c hc) w) w
  exact ⟨w', hright, by rw [h.run_eq, heq, hrun]⟩

theorem Right.of_last (hbuf : A.Buffers) {last : Nat × Nat} (hend : last.1 + last.2 = A.count) {w'' : World α}
    (hfirst : ChunkRight A.place.size A.recvBuf A.result (0, last.1) w w')
    (hlast : ChunkRight A.place.size A.recvBuf A.result last w' w'') : A.Right w w'' := by
  have hnext : ChunkRight A.place.size A.recvBuf A.result (0 + last.1, last.2) w' w'' := by
    rw [Nat.zero_add]
    exact hlast
  have hall := hfirst.trans (elementwise_result hbuf A.count) hbuf.recv (by omega) hnext
  intro r hr i hi
  exact hall.right r hr i (Nat.zero_le _) (by show i < 0 + (last.1 + last.2); omega)

/-- **When every chunk goes through**, every rank gets the result. -/
theorem Loops.run_done (h : A.Loops) (hpos : 0 < A.nchunks)
    (hpass : ∀ c ∈ chunks A.count A.maxIterCount, A.Passes c) (w : World α) : ∃ w', A.run w = .done w' ∧ A.Right w w' := by
  have htiles := (chunks_tile h.max_pos hpos).1
  obtain ⟨fulls, last, heq, -⟩ := h.chunks_full h.max_pos hpos
  have hlast := hpass last (heq ▸ mem_append_right _ mem_cons_self)
  obtain ⟨w', hfirst, hrun⟩ := h.run_split hpos heq (fun c hc => (hpass c (heq ▸ mem_append_left _ hc)).2) w
  rw [heq] at htiles
  have hend : last.1 + last.2 = A.count := htiles.split.2
  by_cases hrem : A.RemainderOnly last
  · obtain ⟨w'', hw'', hright⟩ := chunk_remainder hrem (hlast.1 hrem) hlast.2 w'
    exact ⟨w'', hrun.trans (runChunks_cons_error hw'' []), .of_last h.buffers hend hfirst hright⟩
  · obtain ⟨w'', hw'', hright⟩ := chunk_full h.buffers hrem hlast.2 w'
    exact ⟨w'', hrun.trans (runChunks_cons_ok hw'' []), .of_last h.buffers hend hfirst hright⟩

/-- **Without a chunk nothing is computed**, and a result that all ranks share cannot be there already. -/
theorem not_right_self [Nontrivial α] (hcount : 0 < A.count) (hnodes : 2 ≤ A.place.nodes) : ∃ w : World α, ¬ A.Right w w := by
  obtain ⟨x, y, hxy⟩ := exists_pair_ne α
  have hsize := A.place.two_le_size hnodes
  refine ⟨fun r _ => if r = 0 then x else y, fun hright => hxy ?_⟩
  have h0 := hright 0 (by omega) 0 hcount
  have h1 := hright 1 (by omega) 0 hcount
  exact h0.trans h1.symm

end SyclAllreduce

/-- **When the SYCL allreduce on several nodes is right.** Let the collectives it is made of be right and the scale-out
report everywhere that it is done. A call that is not left to the scheduler gives the reduction to every rank, for all
contents of the buffers, exactly when the number of chunks is positive as an `int`. -/
theorem sycl_allreduce_right_iff {α : Type} [Nontrivial α] (A : SyclAllreduce α) (h : A.Domain)
    (hdone : ∀ c ∈ chunks A.count A.maxIterCount, A.ChunkDone c) : (A.FallsBack → ∀ w, ∃ w', A.run w = .fallback w') ∧
      (¬ A.FallsBack → ((∀ w, ∃ w', A.run w = .done w' ∧ A.Right w w') ↔ 0 < A.nchunks)) := by
  have hmax := h.maxIterCount_pos
  constructor
  · intro hfall w
    by_cases hstart : A.doFallbackToScheduler = true
    · exact ⟨w, SyclAllreduce.run_fallback h.nodes hstart w⟩
    obtain ⟨hofi, c, hc, hrem⟩ := hfall.resolve_left hstart
    have hpos : 0 < A.nchunks := by
      by_contra hneg
      rw [chunks_of_nonpos (Int.not_lt.mp hneg)] at hc
      exact not_mem_nil hc
    obtain ⟨pre, post, heq⟩ := append_of_mem hc
    have hloops : A.Loops := ⟨h.toCall, h.nodes, Bool.eq_false_iff.mpr hstart, hmax⟩
    obtain ⟨w', -, hrun⟩ := hloops.run_split hpos heq (fun c hc => hdone c (heq ▸ mem_append_left _ hc)) w
    exact ⟨w', hrun.trans (runChunks_cons_error (SyclAllreduce.chunk_remainder_ofi hrem hofi w') post)⟩
  · intro hgo
    have hloops : A.Loops := ⟨h.toCall, h.nodes, Bool.eq_false_iff.mpr fun hstart => hgo (.inl hstart), hmax⟩
    constructor
    · intro hright
      by_contra hneg
      obtain ⟨w, hw⟩ := SyclAllreduce.not_right_self h.count h.nodes
      obtain ⟨w', hrun, hw'⟩ := hright w
      rw [hloops.run_eq, chunks_of_nonpos (Int.not_lt.mp hneg)] at hrun
      cases hrun
      exact hw hw'
    · intro hpos
      refine hloops.run_done hpos fun c hc => ⟨fun hrem hofi => ?_, hdone c hc⟩
      exact hgo (.inr ⟨hofi, c, hc, hrem⟩)

/-- Two nodes with two ranks each, numbered node by node. -/
def twoByTwo : Placement := ⟨2, 2, (· / 2), Nat.two_pos, Nat.two_pos, by decide, by decide⟩

def twoByOne : Placement := ⟨2, 1, id, Nat.two_pos, Nat.one_pos, by decide, by decide⟩

/-- Settings under which the direct algorithm reads the device buffers. -/
def directEnv (lineSize deviceBufSize : Nat) : SyclEnv :=
  ⟨.mpi, false, false, lineSize, deviceBufSize, 0, 2 ^ 32, some .direct, 2 ^ 32, some .direct, 0, 0⟩

def syclSum (env : SyclEnv) (place : Placement) (dtypeSize : Nat) (hsize : 0 < dtypeSize) (count : Nat) : SyclAllreduce Nat :=
  ⟨env, place, ⟨.other, dtypeSize, hsize⟩, (· + ·), Nat.instCommutativeHAdd, Nat.instAssociativeHAdd, none,
    fun _ => ⟨.user 0, 0⟩,
    fun _ => ⟨.user 1, 0⟩, count⟩

theorem syclSum_buffers (env : SyclEnv) (place : Placement) (dtypeSize : Nat) (hsize : 0 < dtypeSize) (count : Nat) :
    (syclSum env place dtypeSize hsize count).Buffers :=
  ⟨fun _ => ⟨0, rfl⟩, fun _ => ⟨1, rfl⟩, fun _ => .inr nofun⟩

/-- Five elements in a device buffer for two: two full chunks and one that is all remainder. -/
theorem five_elements_right : (syclSum (directEnv 4 8) twoByTwo 4 (by decide) 5).nchunks = 3 ∧
    ∀ w, ∃ w', (syclSum (directEnv 4 8) twoByTwo 4 (by decide) 5).run w = .done w' ∧
      (syclSum (directEnv 4 8) twoByTwo 4 (by decide) 5).Right w w' := by
  refine ⟨by decide +kernel, ?_⟩
  refine ((sycl_allreduce_right_iff (syclSum (directEnv 4 8) twoByTwo 4 (by decide) 5)
    ⟨⟨by decide, by decide, by decide, syclSum_buffers ..⟩, by decide, by decide, by decide⟩ fun c _ => ?_).2 ?_).mpr ?_
  · exact ⟨fun _ => rfl, fun _ _ _ => rfl⟩
  · rintro (h | h)
    · cases h
    · cases h.1
  · decide +kernel

/-- With lines of one byte and a device buffer of one byte, `2 ^ 31` bytes are `2 ^ 31` chunks, which no `int` can count:
the function reports that it is done, and has done nothing. -/
theorem sycl_allreduce_overflow : ∃ w : World Nat,
    (syclSum (directEnv 1 1) twoByOne 1 (by decide) (2 ^ 31)).run w = .done w ∧
      ¬ (syclSum (directEnv 1 1) twoByOne 1 (by decide) (2 ^ 31)).Right w w := by
  have hdomain : (syclSum (directEnv 1 1) twoByOne 1 (by decide) (2 ^ 31)).Domain :=
    ⟨⟨by decide, by decide, by decide, syclSum_buffers ..⟩, by decide, by decide, by decide⟩
  obtain ⟨w, hw⟩ := SyclAllreduce.not_right_self hdomain.count hdomain.nodes
  refine ⟨w, ?_, hw⟩
  have hloops : (syclSum (directEnv 1 1) twoByOne 1 (by decide) (2 ^ 31)).Loops :=
    ⟨hdomain.toCall, hdomain.nodes, by decide, hdomain.maxIterCount_pos⟩
  rw [hloops.run_eq, chunks_of_nonpos (by decide +kernel)]
  rfl

end OneCcl
