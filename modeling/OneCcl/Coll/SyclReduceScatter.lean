import Mathlib.Tactic.Ring
import OneCcl.Coll.SyclScaleout

/-!
# The SYCL reduce-scatter on several nodes

`reduce_scatter_sycl_multi_node`. Each chunk takes the same piece of the blocks of all ranks. The pieces are rearranged into a
staging buffer, so that those for the ranks at one place of their nodes follow one another; the ranks of a node
reduce-scatter the staging buffer, and the ranks at one place of their nodes reduce-scatter what they got.

The flag of the scale-out of a chunk is only asserted, which is nothing in a release build: the loop goes on, and the next
chunk overwrites the flag. But a scale-out that is not done returns an empty event, and to ask an empty event for its SYCL
event throws. The average of the chunk asks, and so does the next chunk, unless the call is part of a group. So a run of
chunks goes through (`AllGoOn`) or ends with an exception, and what the chunks of the first kind leave together is
`exists_leaves`.
-/

namespace OneCcl

open Reduction List

variable {i j N M p r x : Nat} {c : Nat × Nat} {a : BufSrc × Nat} {sendBuf : Nat → CclBuffer}

/-- `pred_loc`: the location to copy from for a given index. -/
def predLoc (idx N M : Nat) : Nat := if idx = M * N - 1 then idx else M * idx % (M * N - 1)

theorem grid_last (hi : i < M) (hj : j < N) : i * N + j = M * N - 1 ↔ i = M - 1 ∧ j = N - 1 := by
  have hlast : (M - 1) * N + N = M * N := by
    rw [← Nat.succ_mul, Nat.succ_eq_add_one, Nat.sub_add_cancel (by omega)]
  constructor
  · intro h
    obtain rfl : i = M - 1 := by
      by_contra hne
      have := Nat.mul_le_mul_right N (show i + 1 + 1 ≤ M by omega)
      rw [Nat.add_mul, Nat.add_mul, Nat.one_mul] at this
      omega
    exact ⟨rfl, by omega⟩
  · rintro ⟨rfl, rfl⟩
    omega

theorem predLoc_eq (hi : i < M) (hj : j < N) : predLoc (i * N + j) N M = j * M + i := by
  have hlast := grid_last hi hj
  have hlast' := grid_last hj hi
  rw [Nat.mul_comm N M] at hlast'
  unfold predLoc
  split
  next h =>
    obtain ⟨hi', hj'⟩ := hlast.mp h
    rw [h, hlast'.mpr ⟨hj', hi'⟩]
  next h =>
    have hcol := row_le hj M
    rw [Nat.mul_comm N M] at hcol
    have hsplit : M * (i * N + j) = j * M + i + i * (M * N - 1) := by
      have hrow : i * (M * N - 1) + i = i * (M * N) := by
        rw [← Nat.mul_succ, Nat.succ_eq_add_one, Nat.sub_add_cancel (by omega)]
      have hexpand : M * (i * N + j) = j * M + i * (M * N) := by ring
      omega
    rw [hsplit, Nat.add_mul_mod_self_right]
    exact Nat.mod_eq_of_lt (by omega)

/-! ## The function -/

/-- What the caller passes, and `group_impl::is_group_active`. -/
structure SyclReduceScatter (α : Type) where
  env : SyclEnv
  groupActive : Bool
  place : Placement
  dtype : Dtype
  op : α → α → α
  comm : Std.Commutative op
  assoc : Std.Associative op
  average : Option (Nat → α → α)
  sendBuf : Nat → CclBuffer
  recvBuf : Nat → CclBuffer
  recvCount : Nat

namespace SyclReduceScatter

attribute [instance] comm assoc

variable {α : Type} (R : SyclReduceScatter α)

/-- `do_fallback_to_scheduler`. -/
def doFallbackToScheduler : Bool :=
  R.recvCount * R.dtype.size > R.env.reduceScatterScaleoutThreshold ||
    (R.env.transport = .ofi && (R.env.reduceScatterScaleoutAlgo = none || R.env.reduceScatterScaleoutAlgo = some .direct))

/-- `max_pack_count`. -/
def maxPackCount : Nat :=
  if R.recvCount * R.dtype.size * R.place.size ≤ R.env.deviceBufInt then R.recvCount
  else
    let typesize := max 4 R.dtype.size
    R.env.deviceBufInt / R.place.size / typesize * typesize / R.dtype.size

/-- `nchunks`. -/
def nchunks : Int := asInt ((R.recvCount + R.maxPackCount - 1) / R.maxPackCount)

/-- `need_rearrange`. -/
def needRearrange : Bool := R.nchunks > 1 || R.place.ppn > 1

/-- `staging_buf`. -/
def stagingBuf (r : Nat) : CclBuffer := if R.needRearrange then scaleoutDeviceBuf else R.sendBuf r

/-- The block that `rearrange` brings to index `idx`: one kernel up to 1 GiB, and `transpose` above. -/
def rearrangeFrom (packCount idx : Nat) : Nat :=
  if packCount * R.dtype.size * R.place.nodes * R.place.ppn ≤ 1073741824 then predLoc idx R.place.nodes R.place.ppn
  else idx % R.place.nodes * R.place.ppn + idx / R.place.nodes

/-- `rearrange`. -/
def rearrange (c : Nat × Nat) (w : World α) : World α := fun r =>
  writeAt scaleoutDeviceBuf (R.place.size * c.2)
    (fun y => w r ((R.sendBuf r).at (R.rearrangeFrom c.2 (y / c.2) * R.recvCount + c.1 + y % c.2))) (w r)

/-- `scaleup_buf`. -/
def scaleupBuf (packCount r : Nat) : CclBuffer :=
  if R.place.ppn > 1 then R.stagingBuf r + packCount * R.place.nodes * R.place.localRank r else R.stagingBuf r

def scaleUp (packCount : Nat) (w : World α) : World α :=
  if R.place.ppn > 1 then
    R.place.nodeComm.reduceScatter R.op R.stagingBuf (R.scaleupBuf packCount) (packCount * R.place.nodes) 0 w
  else w

/-- `reduce_scatter_scaleout_sycl_simple`, where it does not give up. The number of elements copied to the host is an
`int`. -/
def scaleoutSimple (sendBuf recvBuf : Nat → CclBuffer) (recvCount : Nat) (w : World α) : World α :=
  if R.env.copyToHost then
    let count := asInt (recvCount * R.place.nodes)
    let w : World α := fun r => writeAt scaleoutHostBuf (asSizeT count) (fun i => w r ((sendBuf r).at i)) (w r)
    let w := R.place.r2rComm.reduceScatter R.op (fun _ => scaleoutHostBuf) (fun _ => scaleoutHostBuf) recvCount 0 w
    fun r => writeAt (recvBuf r) recvCount (fun i => w r (scaleoutHostBuf.at i)) (w r)
  else R.place.r2rComm.reduceScatter R.op sendBuf recvBuf recvCount 0 w

def scaleoutAlgo (packCount : Nat) : ReduceScatterScaleoutAlgo :=
  R.env.reduceScatterSelectAlgo (packCount * R.dtype.size) R.place.nodes

/-- The flag of the scale-out, the same on all ranks. -/
def scaleOutDone (packCount : Nat) : Bool :=
  R.env.reduceScatterScaleoutDone (R.scaleoutAlgo packCount) R.dtype.size R.place.nodes packCount

/-- `reduce_scatter_scaleout_sycl`. -/
def scaleOut (c : Nat × Nat) (w : World α) : World α :=
  let recvBuf := fun r => R.recvBuf r + c.1
  if R.scaleOutDone c.2 then
    match R.scaleoutAlgo c.2 with
    | .direct => R.scaleoutSimple (R.scaleupBuf c.2) recvBuf c.2 w
    | .ring => R.place.r2rComm.reduceScatter R.op (R.scaleupBuf c.2) recvBuf c.2 0 w
  else w

def Fits (packCount : Nat) : Prop :=
  R.needRearrange = true → packCount * R.dtype.size * R.place.size ≤ R.env.deviceBufSize

instance (packCount : Nat) : Decidable (R.Fits packCount) := inferInstanceAs (Decidable (_ → _))

/-- What `rearrange` leaves, if it is called. -/
def staged (c : Nat × Nat) (w : World α) : World α := if R.needRearrange then R.rearrange c w else w

def after (c : Nat × Nat) (w : World α) : World α :=
  syclAverage R.average R.place.size (fun r => R.recvBuf r + c.1) (fun _ => c.2)
    (R.scaleOut c (R.scaleUp c.2 (R.staged c w)))

/-- What a turn of the loop needs to get through, where `flag` is that of the turn before. A write beyond the staging
buffer is fatal. `rearrange` waits for the event of the turn before (`get_sycl_events` asks for it outside a group only), and
the average for the event of this turn: `get_native` throws if that is the empty event of a scale-out that is not done. -/
def GoesOn (flag : Bool) (packCount : Nat) : Prop :=
  R.Fits packCount ∧ (R.needRearrange = true → R.groupActive = false → flag = true) ∧
    (R.average.isSome = true → R.scaleOutDone packCount = true)

instance (flag : Bool) (packCount : Nat) : Decidable (R.GoesOn flag packCount) := inferInstanceAs (Decidable (_ ∧ _))

/-- One turn of the loop. The flag of the turn before is overwritten. -/
def chunk (c : Nat × Nat) : World α × Bool → Except (Outcome (World α × Bool)) (World α × Bool)
  | (w, flag) =>
    if R.GoesOn flag c.2 then .ok (R.after c w, R.scaleOutDone c.2) else .error .stopped

/-- `reduce_scatter_sycl_multi_node`. -/
def run (w : World α) : Outcome (World α) :=
  if R.place.nodes = 1 then
    .done (syclAverage R.average R.place.size R.recvBuf (fun _ => R.recvCount)
      ((Split.whole R.place.size).reduceScatter R.op R.sendBuf R.recvBuf R.recvCount 0 w))
  else if R.doFallbackToScheduler then .fallback w
  else if R.maxPackCount = 0 then .stopped
  else
    match runChunks R.chunk (chunks R.recvCount R.maxPackCount) (w, true) with
    | .done (w, true) => .done w
    | .done (w, false) => .fallback w
    | _ => .stopped

/-! ## A chunk -/

variable {R}

theorem chunk_of_goesOn {flag : Bool} (h : R.GoesOn flag c.2) (w : World α) :
    R.chunk c (w, flag) = .ok (R.after c w, R.scaleOutDone c.2) := by
  rw [chunk, if_pos h]

theorem rearrangeFrom_eq (hi : i < R.place.ppn) (hj : j < R.place.nodes) :
    R.rearrangeFrom p (i * R.place.nodes + j) = j * R.place.ppn + i := by
  unfold rearrangeFrom
  split
  · exact predLoc_eq hi hj
  · rw [Nat.add_comm (i * _), Nat.add_mul_mod_self_right, Nat.mod_eq_of_lt hj, Nat.add_mul_div_right _ _ R.place.nodes_pos,
      Nat.div_eq_of_lt hj, Nat.zero_add]

variable {w w' : World α}

theorem staged_at (hc : R.needRearrange = false → c = (0, R.recvCount)) (hi : i < R.place.ppn)
    (hj : j < R.place.nodes) (hx : x < c.2) : R.staged c w r ((R.stagingBuf r).at ((i * R.place.nodes + j) * c.2 + x)) =
      w r ((R.sendBuf r).at ((j * R.place.ppn + i) * R.recvCount + (c.1 + x))) := by
  unfold staged stagingBuf
  cases hneed : R.needRearrange with
  | true =>
    rw [if_pos rfl, if_pos rfl]
    have hlt : (i * R.place.nodes + j) * c.2 + x < R.place.size * c.2 := by
      have hgrid : i * R.place.nodes + j + 1 ≤ R.place.size := by
        have := row_le hi R.place.nodes
        rw [Nat.mul_comm R.place.ppn] at this
        show _ ≤ R.place.nodes * R.place.ppn
        omega
      have := Nat.mul_le_mul_right c.2 hgrid
      rw [Nat.add_mul, Nat.one_mul] at this
      omega
    refine (writeAt_at ..).trans ((if_pos hlt).trans ?_)
    have hpos : 0 < c.2 := Nat.zero_lt_of_lt hx
    rw [Nat.add_comm (_ * c.2) x, Nat.add_mul_div_right _ _ hpos, Nat.div_eq_of_lt hx, Nat.zero_add,
      Nat.add_mul_mod_self_right, Nat.mod_eq_of_lt hx, rearrangeFrom_eq hi hj, Nat.add_assoc]
  | false =>
    have hone : R.place.ppn = 1 := by
      have : ¬ R.place.ppn > 1 := by
        simp only [needRearrange, Bool.or_eq_false_iff, decide_eq_false_iff_not] at hneed
        exact hneed.2
      omega
    obtain rfl : i = 0 := by omega
    obtain rfl := hc hneed
    simp only [Bool.false_eq_true, if_false, hone, Nat.zero_mul, Nat.zero_add, Nat.mul_one, Nat.add_zero]

theorem staged_of_ne (ha : a.1 ≠ scaleoutDeviceBuf.src) : R.staged c w r a = w r a := by
  unfold staged
  split
  · exact writeAt_of_notMem fun h => ha h.1
  · rfl

/-- **After the scale-up** a rank has the pieces for the ranks at its place of their nodes, reduced over its node. -/
theorem scaleUp_at (hc : R.needRearrange = false → c = (0, R.recvCount)) (hr : r < R.place.size)
    (hj : j < R.place.nodes) (hx : x < c.2) : R.scaleUp c.2 (R.staged c w) r ((R.scaleupBuf c.2 r).at (j * c.2 + x)) =
      reduceRange R.op R.place.ppn fun k => w (R.place.nodeComm.member r k)
        ((R.sendBuf (R.place.nodeComm.member r k)).at
          ((j * R.place.ppn + R.place.localRank r) * R.recvCount + (c.1 + x))) := by
  unfold scaleUp
  by_cases hppn : R.place.ppn > 1
  · rw [if_pos hppn]
    have hlt : j * c.2 + x < c.2 * R.place.nodes := by
      have := row_le hj c.2
      rw [Nat.mul_comm R.place.nodes] at this
      omega
    refine (writeAt_at ..).trans ((if_pos ?_).trans ?_)
    · rw [Nat.add_zero, ite_self]
      exact hlt
    · refine reduceRange_congr R.place.ppn_pos fun k _ => ?_
      have hindex : R.place.nodeComm.rank r * (c.2 * R.place.nodes) + (j * c.2 + x) =
          (R.place.localRank r * R.place.nodes + j) * c.2 + x := by
        unfold Placement.localRank
        ring
      rw [hindex]
      exact staged_at hc (R.place.localRank_lt hr) hj hx
  · obtain ⟨hone, hzero, hself⟩ := Placement.alone_of_ppn hr hppn
    have hat := staged_at hc (w := w) (r := r) (i := 0) R.place.ppn_pos hj hx
    rw [Nat.zero_mul, Nat.zero_add] at hat
    rw [if_neg hppn, scaleupBuf, if_neg hppn, hzero, hat, hone]
    show _ = w (R.place.nodeComm.member r 0) _
    rw [hself]

theorem scaleUp_of_ne (ha : a.1 ≠ scaleoutDeviceBuf.src) : R.scaleUp c.2 (R.staged c w) r a = w r a := by
  rw [← staged_of_ne (R := R) (c := c) (w := w) ha]
  unfold scaleUp
  split
  next hppn =>
    refine writeAt_of_notMem fun h => ha ?_
    have hneed : R.needRearrange = true := by
      simp only [needRearrange, Bool.or_eq_true, decide_eq_true_eq]
      exact .inr hppn
    have hsrc := h.1
    rwa [scaleupBuf, if_pos hppn, CclBuffer.add_src, stagingBuf, if_pos hneed] at hsrc
  · rfl

variable (R)

/-- The number of elements that the direct algorithm copies to the host is what it should be. -/
def Exact (packCount : Nat) : Prop :=
  R.scaleoutAlgo packCount = .direct → R.env.copyToHost = true → packCount * R.place.nodes < 2 ^ 31

instance (packCount : Nat) : Decidable (R.Exact packCount) := inferInstanceAs (Decidable (_ → _ → _))

/-- The element `idx` of the scale-up buffer reaches the other nodes: with the direct algorithm and staging on the host, it
is among those copied to the host. -/
def Copied (packCount idx : Nat) : Prop :=
  R.scaleoutAlgo packCount = .direct → R.env.copyToHost = true → idx < asSizeT (asInt (packCount * R.place.nodes))

/-- The buffers are the caller's. The receive buffer of a rank is its block of the send buffer, or another buffer. -/
structure Buffers : Prop where
  send : ∀ r, (R.sendBuf r).src.IsUser
  recv : ∀ r, (R.recvBuf r).src.IsUser
  apart : ∀ r, R.recvBuf r = R.sendBuf r + r * R.recvCount ∨ (R.recvBuf r).src ≠ (R.sendBuf r).src

variable {R}

theorem Exact.copied {idx : Nat} (h : R.Exact p) (hidx : idx < p * R.place.nodes) : R.Copied p idx := by
  intro halgo hhost
  have := h halgo hhost
  rw [asInt_of_lt this, asSizeT_of_nat (by omega)]
  exact hidx

theorem r2r_at (recvBuf : Nat → CclBuffer) (hx : x < p) :
    R.place.r2rComm.reduceScatter R.op sendBuf recvBuf p 0 w r ((recvBuf r).at x) =
      reduceRange R.op R.place.nodes fun k => w (R.place.r2rComm.member r k)
        ((sendBuf (R.place.r2rComm.member r k)).at (R.place.r2rRank r * p + x)) := by
  refine (writeAt_at ..).trans (if_pos ?_)
  rw [Nat.add_zero, ite_self]
  exact hx

theorem r2r_of_notMem (recvBuf : Nat → CclBuffer) (ha : a ∉ region (recvBuf r) p) :
    R.place.r2rComm.reduceScatter R.op sendBuf recvBuf p 0 w r a = w r a := by
  refine writeAt_of_notMem ?_
  rw [Nat.add_zero, ite_self]
  exact ha

theorem r2r_index_lt (hr : r < R.place.size) (hx : x < p) : R.place.r2rRank r * p + x < p * R.place.nodes := by
  have := row_le (show R.place.r2rRank r < R.place.nodes from R.place.r2rComm.rank_lt r hr) p
  rw [Nat.mul_comm R.place.nodes] at this
  omega

section

variable {sendBuf : Nat → CclBuffer} (recvBuf : Nat → CclBuffer) {p : Nat} {w : World α} {r : Nat}

theorem scaleoutSimple_at (hhost : R.env.copyToHost = true) (hx : x < p) :
    R.scaleoutSimple sendBuf recvBuf p w r ((recvBuf r).at x) =
      reduceRange R.op R.place.nodes fun k =>
        if R.place.r2rRank r * p + x < asSizeT (asInt (p * R.place.nodes)) then
          w (R.place.r2rComm.member r k) ((sendBuf (R.place.r2rComm.member r k)).at (R.place.r2rRank r * p + x))
        else w (R.place.r2rComm.member r k) (scaleoutHostBuf.at (R.place.r2rRank r * p + x)) := by
  unfold scaleoutSimple
  rw [if_pos hhost]
  refine (writeAt_at ..).trans ((if_pos hx).trans ((r2r_at (fun _ => scaleoutHostBuf) hx).trans ?_))
  exact reduceRange_congr R.place.nodes_pos fun k _ => writeAt_at ..

theorem scaleoutSimple_of_notMem (ha : a ∉ region (recvBuf r) p)
    (hhost : R.env.copyToHost = true →
      a ∉ region scaleoutHostBuf p ∧ a ∉ region scaleoutHostBuf (asSizeT (asInt (p * R.place.nodes)))) :
    R.scaleoutSimple sendBuf recvBuf p w r a = w r a := by
  unfold scaleoutSimple
  split
  next h =>
    refine (writeAt_of_notMem ha).trans ((r2r_of_notMem (fun _ => scaleoutHostBuf) (hhost h).1).trans ?_)
    exact writeAt_of_notMem (hhost h).2
  · exact r2r_of_notMem recvBuf ha

end

variable {c : Nat × Nat} {w : World α} {r : Nat}

/-- **The scale-out**, at an element that is copied. -/
theorem scaleOut_at (hdone : R.scaleOutDone c.2 = true) (hx : x < c.2)
    (hcopied : R.Copied c.2 (R.place.r2rRank r * c.2 + x)) :
    R.scaleOut c w r ((R.recvBuf r + c.1).at x) = reduceRange R.op R.place.nodes fun k =>
      w (R.place.r2rComm.member r k) ((R.scaleupBuf c.2 (R.place.r2rComm.member r k)).at (R.place.r2rRank r * c.2 + x)) := by
  unfold scaleOut
  rw [if_pos hdone]
  cases halgo : R.scaleoutAlgo c.2 with
  | ring => exact r2r_at (fun r => R.recvBuf r + c.1) hx
  | direct =>
    cases hhost : R.env.copyToHost with
    | false =>
      show R.scaleoutSimple _ _ _ _ _ _ = _
      unfold scaleoutSimple
      rw [if_neg (ne_true_of_eq_false hhost)]
      exact r2r_at (fun r => R.recvBuf r + c.1) hx
    | true =>
      refine (scaleoutSimple_at (fun r => R.recvBuf r + c.1) hhost hx).trans ?_
      simp only [if_pos (hcopied halgo hhost)]

/-- **The scale-out**, at an element that is not copied: it is reduced from what the host buffers hold. -/
theorem scaleOut_stale (hdone : R.scaleOutDone c.2 = true) (hx : x < c.2)
    (hstale : ¬ R.Copied c.2 (R.place.r2rRank r * c.2 + x)) :
    R.scaleOut c w r ((R.recvBuf r + c.1).at x) = reduceRange R.op R.place.nodes fun k =>
      w (R.place.r2rComm.member r k) (scaleoutHostBuf.at (R.place.r2rRank r * c.2 + x)) := by
  simp only [Copied, Classical.not_imp, Nat.not_lt] at hstale
  obtain ⟨halgo, hhost, hge⟩ := hstale
  unfold scaleOut
  rw [if_pos hdone, halgo]
  refine (scaleoutSimple_at (fun r => R.recvBuf r + c.1) hhost hx).trans ?_
  simp only [if_neg hge.not_gt]

theorem scaleOut_of_notMem (ha : a ∉ region (R.recvBuf r + c.1) c.2)
    (hhost : R.scaleOutDone c.2 = true → R.scaleoutAlgo c.2 = .direct → R.env.copyToHost = true →
      a ∉ region scaleoutHostBuf c.2 ∧ a ∉ region scaleoutHostBuf (asSizeT (asInt (c.2 * R.place.nodes)))) :
    R.scaleOut c w r a = w r a := by
  unfold scaleOut
  split
  next hdone =>
    cases halgo : R.scaleoutAlgo c.2 with
    | ring => exact r2r_of_notMem (fun r => R.recvBuf r + c.1) ha
    | direct => exact scaleoutSimple_of_notMem (fun r => R.recvBuf r + c.1) ha (hhost hdone halgo)
  · rfl

theorem after_of_notMem (hdev : a.1 ≠ scaleoutDeviceBuf.src) (hhost : a.1 ≠ scaleoutHostBuf.src)
    (ha : a ∉ region (R.recvBuf r + c.1) c.2) : R.after c w r a = w r a :=
  (syclAverage_of_notMem ha).trans
    ((scaleOut_of_notMem ha fun _ _ _ => ⟨fun h => hhost h.1, fun h => hhost h.1⟩).trans (scaleUp_of_ne hdev))

theorem after_onlyIn : OnlyIn R.place.size R.recvBuf c w (R.after c w) := by
  intro r _ a hu ha
  exact after_of_notMem (hu.ne_alloc 0 0) (hu.ne_alloc 0 1) ha

/-- **A chunk that is done** gives a rank its piece of the block of its slot. -/
theorem after_done (hdone : R.scaleOutDone c.2 = true) (hc : R.needRearrange = false → c = (0, R.recvCount))
    (hr : r < R.place.size) (hx : x < c.2) (hcopied : R.Copied c.2 (R.place.r2rRank r * c.2 + x)) :
    R.after c w r ((R.recvBuf r).at (c.1 + x)) = averaged R.average R.place.size (reduceRange R.op R.place.size fun r' =>
      w r' ((R.sendBuf r').at (R.place.slot r * R.recvCount + (c.1 + x)))) := by
  rw [← CclBuffer.add_at]
  refine (syclAverage_at (fun r => R.recvBuf r + c.1) hx).trans (congrArg (averaged _ _) ?_)
  rw [scaleOut_at hdone hx hcopied, ← Placement.reduce_grid hr]
  refine reduceRange_congr R.place.nodes_pos fun j hj => ?_
  have hrank : R.place.r2rRank r < R.place.nodes := R.place.r2rComm.rank_lt r hr
  rw [scaleUp_at hc (R.place.r2rComm.member_lt r hr j hj) hrank hx, Placement.localRank_r2rMember hr hj]
  rfl

/-- **A chunk that is not done** leaves what stands in the receive buffer, averaged. -/
theorem after_undone (hbuf : R.Buffers) (hdone : R.scaleOutDone c.2 = false) (hx : x < c.2) :
    R.after c w r ((R.recvBuf r).at (c.1 + x)) = averaged R.average R.place.size (w r ((R.recvBuf r).at (c.1 + x))) := by
  rw [← CclBuffer.add_at]
  refine (syclAverage_at (fun r => R.recvBuf r + c.1) hx).trans (congrArg (averaged _ _) ?_)
  unfold scaleOut
  rw [if_neg (ne_true_of_eq_false hdone)]
  exact scaleUp_of_ne ((hbuf.recv r).ne_alloc 0 0)

/-- **A chunk that is done, at an element that is not copied** to the host. -/
theorem after_stale (hdone : R.scaleOutDone c.2 = true) (hx : x < c.2)
    (hstale : ¬ R.Copied c.2 (R.place.r2rRank r * c.2 + x)) : R.after c w r ((R.recvBuf r).at (c.1 + x)) =
      averaged R.average R.place.size (reduceRange R.op R.place.nodes fun k =>
        w (R.place.r2rComm.member r k) (scaleoutHostBuf.at (R.place.r2rRank r * c.2 + x))) := by
  rw [← CclBuffer.add_at]
  refine (syclAverage_at (fun r => R.recvBuf r + c.1) hx).trans (congrArg (averaged _ _) ?_)
  rw [scaleOut_stale hdone hx hstale]
  exact reduceRange_congr R.place.nodes_pos fun k _ => scaleUp_of_ne nofun

variable (R) in
/-- A chunk that leaves element `i` of the host buffer as it is: it is not done, or its count is exact and `i` is beyond
what an exact count reaches. -/
def Spares (c : Nat × Nat) (i : Nat) : Prop := R.scaleOutDone c.2 = true → R.Exact c.2 ∧ 2 ^ 31 ≤ i + 1

theorem after_host (hbuf : R.Buffers) (hspares : R.Spares c i) :
    R.after c w r (scaleoutHostBuf.at i) = w r (scaleoutHostBuf.at i) := by
  have hrecv : scaleoutHostBuf.at i ∉ region (R.recvBuf r + c.1) c.2 :=
    fun h => (hbuf.recv r).ne_alloc 0 1 h.1.symm
  refine (syclAverage_of_notMem hrecv).trans ((scaleOut_of_notMem hrecv ?_).trans (scaleUp_of_ne nofun))
  intro hdone halgo hhost
  obtain ⟨hexact, hi⟩ := hspares hdone
  have hlt := hexact halgo hhost
  have hle := Nat.le_mul_of_pos_right c.2 R.place.nodes_pos
  have hcount : asSizeT (asInt (c.2 * R.place.nodes)) = c.2 * R.place.nodes := by
    rw [asInt_of_lt hlt, asSizeT_of_nat (by omega)]
  rw [hcount, at_mem_region, at_mem_region]
  omega

/-! ## The loop -/

theorem send_notMem (hbuf : R.Buffers) (hle : c.1 + c.2 ≤ R.recvCount) {b : Nat} (hi : i < R.recvCount)
    (hout : i < c.1 ∨ c.1 + c.2 ≤ i) : (R.sendBuf r).at (b * R.recvCount + i) ∉ region (R.recvBuf r + c.1) c.2 := by
  rcases hbuf.apart r with h | h
  · rw [h, CclBuffer.add_add, at_mem_region_add]
    rintro ⟨hlo, hhi⟩
    -- both indices are in the block that the quotient by the block size gives
    obtain ⟨y, hy⟩ : ∃ y, b * R.recvCount + i = r * R.recvCount + c.1 + y := ⟨_, (Nat.add_sub_cancel' hlo).symm⟩
    have hmod := congrArg (· % R.recvCount) hy
    simp only [Nat.add_assoc, Nat.mul_add_mod_self_right] at hmod
    rw [Nat.mod_eq_of_lt hi, Nat.mod_eq_of_lt (by omega)] at hmod
    omega
  · exact fun hc => h hc.1.symm

/-- The element of the result that a rank gets for its slot. -/
def result (R : SyclReduceScatter α) (w : World α) (r i : Nat) : α :=
  averaged R.average R.place.size (reduceRange R.op R.place.size fun r' =>
    w r' ((R.sendBuf r').at (R.place.slot r * R.recvCount + i)))

theorem result_of_onlyIn (hbuf : R.Buffers) (hle : c.1 + c.2 ≤ R.recvCount)
    (honly : OnlyIn R.place.size R.recvBuf c w w') (hi : i < R.recvCount) (hout : i < c.1 ∨ c.1 + c.2 ≤ i) :
    R.result w' r i = R.result w r i := by
  refine congrArg (averaged _ _) (reduceRange_congr R.place.size_pos fun r' hr' => ?_)
  exact honly r' hr' _ (hbuf.send r') (send_notMem hbuf hle hi hout)

theorem recv_of_onlyIn (hbuf : R.Buffers) (honly : OnlyIn R.place.size R.recvBuf c w w')
    (hr : r < R.place.size) (hout : i < c.1 ∨ c.1 + c.2 ≤ i) : w' r ((R.recvBuf r).at i) = w r ((R.recvBuf r).at i) := by
  refine honly r hr _ (hbuf.recv r) fun h => ?_
  have := at_mem_region_add.mp h
  omega

/-- What the chunks from `lo` to `hi` leave. -/
structure Leaves (R : SyclReduceScatter α) (lo : Nat) (cs : List (Nat × Nat)) (hi : Nat) (w w' : World α) : Prop where
  only : OnlyIn R.place.size R.recvBuf (lo, hi - lo) w w'
  undone : ∀ c ∈ cs, R.scaleOutDone c.2 = false → ∀ r < R.place.size, ∀ x < c.2,
    w' r ((R.recvBuf r).at (c.1 + x)) = averaged R.average R.place.size (w r ((R.recvBuf r).at (c.1 + x)))
  done : ∀ c ∈ cs, R.scaleOutDone c.2 = true → ∀ r < R.place.size, ∀ x < c.2,
    R.Copied c.2 (R.place.r2rRank r * c.2 + x) → w' r ((R.recvBuf r).at (c.1 + x)) = R.result w r (c.1 + x)
  stale : ∀ c ∈ cs, R.scaleOutDone c.2 = true → ∀ r < R.place.size, ∀ x < c.2,
    ¬ R.Copied c.2 (R.place.r2rRank r * c.2 + x) →
    (∀ c' ∈ cs, c'.1 < c.1 → R.Spares c' (R.place.r2rRank r * c.2 + x)) →
      w' r ((R.recvBuf r).at (c.1 + x)) = averaged R.average R.place.size (reduceRange R.op R.place.nodes fun k =>
        w (R.place.r2rComm.member r k) (scaleoutHostBuf.at (R.place.r2rRank r * c.2 + x)))

/-- Chunks of a call: they are not empty, and without a staging buffer there is a single one. -/
structure GoodChunk (R : SyclReduceScatter α) (c : Nat × Nat) : Prop where
  pos : 0 < c.2
  whole : R.needRearrange = false → c = (0, R.recvCount)

/-- Every turn gets through. -/
def AllGoOn (R : SyclReduceScatter α) : Bool → List (Nat × Nat) → Prop
  | _, [] => True
  | flag, c :: cs => R.GoesOn flag c.2 ∧ R.AllGoOn (R.scaleOutDone c.2) cs

/-- **When every turn gets through**: all chunks fit, no chunk with an average is left undone, and where a turn asks for the
event of the turn before, all turns but the last are done. -/
theorem allGoOn_iff {cs : List (Nat × Nat)} {flag : Bool} : R.AllGoOn flag cs ↔
    (∀ c ∈ cs, R.Fits c.2 ∧ (R.average.isSome = true → R.scaleOutDone c.2 = true)) ∧
      (R.needRearrange = true → R.groupActive = false →
        (cs ≠ [] → flag = true) ∧ ∀ c ∈ cs.dropLast, R.scaleOutDone c.2 = true) := by
  induction cs generalizing flag with
  | nil => simp [AllGoOn]
  | cons c cs ih =>
    have hdropLast : (∀ c' ∈ (c :: cs).dropLast, R.scaleOutDone c'.2 = true) ↔
        (cs ≠ [] → R.scaleOutDone c.2 = true) ∧ ∀ c' ∈ cs.dropLast, R.scaleOutDone c'.2 = true := by
      cases cs <;> simp
    rw [AllGoOn, ih, GoesOn, forall_mem_cons, hdropLast]
    constructor
    · rintro ⟨⟨hfits, hbefore, haverage⟩, hall, hrest⟩
      exact ⟨⟨⟨hfits, haverage⟩, hall⟩, fun hneed hout => ⟨fun _ => hbefore hneed hout, hrest hneed hout⟩⟩
    · rintro ⟨⟨⟨hfits, haverage⟩, hall⟩, hrest⟩
      exact ⟨⟨hfits, fun hneed hout => (hrest hneed hout).1 (cons_ne_nil c cs), haverage⟩, hall,
        fun hneed hout => (hrest hneed hout).2⟩

/-- **What a run of chunks leaves**, and the flag of its last chunk. -/
theorem exists_leaves (hbuf : R.Buffers) {cs : List (Nat × Nat)} {lo hi : Nat} (ht : Tiles lo cs hi)
    (hhi : hi ≤ R.recvCount) (hcs : ∀ c ∈ cs, R.GoodChunk c) (w : World α) {flag : Bool} (hgo : R.AllGoOn flag cs) :
    ∃ w', R.Leaves lo cs hi w w' ∧
      runChunks R.chunk cs (w, flag) = .done (w', ((cs.getLast?.map fun c => R.scaleOutDone c.2).getD flag)) := by
  induction cs generalizing lo w flag with
  | nil =>
    refine ⟨w, ⟨fun _ _ _ _ _ => rfl, nofun, nofun, nofun⟩, rfl⟩
  | cons c cs ih =>
    obtain ⟨rfl, ht⟩ := ht
    have hle := ht.le
    have hc := hcs c mem_cons_self
    obtain ⟨hgo, hrest⟩ := hgo
    obtain ⟨w', hleaves, hrun⟩ := ih ht (fun c hc => hcs c (mem_cons_of_mem _ hc)) (R.after c w) hrest
    -- the later chunks lie behind this one
    have hlater : ∀ c' ∈ cs, c.1 + c.2 ≤ c'.1 ∧ c'.1 + c'.2 ≤ hi := fun c' hc' => ht.mem hc'
    have hkeep : ∀ r < R.place.size, ∀ x < c.2,
        w' r ((R.recvBuf r).at (c.1 + x)) = R.after c w r ((R.recvBuf r).at (c.1 + x)) :=
      fun r hr x hx => recv_of_onlyIn hbuf hleaves.only hr (.inl (by show c.1 + x < c.1 + c.2; omega))
    refine ⟨w', ⟨?_, ?_, ?_, ?_⟩, ?_⟩
    · have htrans := OnlyIn.trans (after_onlyIn (R := R) (c := c) (w := w)) hleaves.only
      rwa [show c.2 + (hi - (c.1 + c.2)) = hi - c.1 by omega] at htrans
    · intro c' hc' hdone r hr x hx
      rcases mem_cons.mp hc' with rfl | hc'
      · rw [hkeep r hr x hx]
        exact after_undone hbuf hdone hx
      · rw [hleaves.undone c' hc' hdone r hr x hx]
        refine congrArg (averaged _ _) (recv_of_onlyIn hbuf after_onlyIn hr (.inr ?_))
        have := (hlater c' hc').1
        omega
    · intro c' hc' hdone r hr x hx hcopied
      rcases mem_cons.mp hc' with rfl | hc'
      · rw [hkeep r hr x hx]
        exact after_done hdone hc.whole hr hx hcopied
      · rw [hleaves.done c' hc' hdone r hr x hx hcopied]
        have := hlater c' hc'
        exact result_of_onlyIn hbuf (by omega) after_onlyIn (by omega) (.inr (by omega))
    · intro c' hc' hdone r hr x hx hstale hspares
      rcases mem_cons.mp hc' with rfl | hc'
      · rw [hkeep r hr x hx]
        exact after_stale hdone hx hstale
      · rw [hleaves.stale c' hc' hdone r hr x hx hstale fun c'' hc'' => hspares c'' (mem_cons_of_mem _ hc'')]
        refine congrArg (averaged _ _) (reduceRange_congr R.place.nodes_pos fun k _ => ?_)
        refine after_host hbuf (hspares c mem_cons_self ?_)
        have := (hlater c' hc').1
        have := hc.pos
        omega
    · rw [runChunks_cons_ok (chunk_of_goesOn hgo w), hrun]
      cases cs with
      | nil => rfl
      | cons c' cs => rfl

/-! ## The call -/

theorem chunks_of_not_needRearrange (hpos : 0 < R.nchunks) (hneed : R.needRearrange = false) :
    chunks R.recvCount R.maxPackCount = [(0, R.recvCount)] := by
  have hone : R.nchunks = 1 := by
    simp only [needRearrange, Bool.or_eq_false_iff, decide_eq_false_iff_not] at hneed
    omega
  rw [chunks_of_asInt hone]
  simp

theorem chunks_good (hmax : 0 < R.maxPackCount) (hpos : 0 < R.nchunks) :
    Tiles 0 (chunks R.recvCount R.maxPackCount) R.recvCount ∧ ∀ c ∈ chunks R.recvCount R.maxPackCount, R.GoodChunk c := by
  obtain ⟨htiles, hlen⟩ := chunks_tile hmax hpos
  refine ⟨htiles, fun c hc => ⟨hlen c hc, fun hneed => ?_⟩⟩
  rw [chunks_of_not_needRearrange hpos hneed] at hc
  exact mem_singleton.mp hc

theorem exists_last (hmax : 0 < R.maxPackCount) (hpos : 0 < R.nchunks) :
    ∃ last, (chunks R.recvCount R.maxPackCount).getLast? = some last := by
  obtain ⟨m, -, heq⟩ := chunks_eq hmax hpos
  exact ⟨_, by rw [heq, getLast?_append, getLast?_singleton]; rfl⟩

/-- **A call that is not left to the scheduler from the start**: the chunks, and the flag of the last one. -/
theorem run_eq (hnodes : 2 ≤ R.place.nodes) (hbuf : R.Buffers)
    (hgo : R.doFallbackToScheduler = false) (hmax : 0 < R.maxPackCount) (hpos : 0 < R.nchunks)
    (hchunks : R.AllGoOn true (chunks R.recvCount R.maxPackCount)) {last : Nat × Nat}
    (hlast : (chunks R.recvCount R.maxPackCount).getLast? = some last) (w : World α) :
    ∃ w', R.Leaves 0 (chunks R.recvCount R.maxPackCount) R.recvCount w w' ∧
      R.run w = if R.scaleOutDone last.2 then .done w' else .fallback w' := by
  obtain ⟨htiles, hgood⟩ := chunks_good hmax hpos
  obtain ⟨w', hleaves, hrun⟩ := exists_leaves hbuf htiles le_rfl hgood w hchunks
  refine ⟨w', hleaves, ?_⟩
  rw [hlast, Option.map_some, Option.getD_some] at hrun
  unfold run
  rw [if_neg (by omega), if_neg (ne_true_of_eq_false hgo), if_neg hmax.ne', hrun]
  cases R.scaleOutDone last.2 <;> rfl

end SyclReduceScatter

end OneCcl
