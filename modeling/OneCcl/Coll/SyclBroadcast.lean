import OneCcl.Coll.SyclScaleout

/-!
# The SYCL broadcast on several nodes

`broadcast_sycl_multi_node`. The root is projected to a node and to a place on a node by a division by the number of ranks on
a node. The ranks at that place of their nodes broadcast between the nodes, from the one with that node's number, and then
each of them broadcasts on its node.

The rank whose data arrives is `source`: the one in the slot that the root's number names.
-/

namespace OneCcl

/-- What the caller passes, and the setting that only the broadcast reads. -/
structure SyclBroadcast (α : Type) where
  env : SyclEnv
  broadcastScaleoutThreshold : Nat
  place : Placement
  dtype : Dtype
  sendBuf : Nat → CclBuffer
  recvBuf : Nat → CclBuffer
  count : Nat
  root : Nat

namespace SyclBroadcast

variable {α : Type} (B : SyclBroadcast α)

/-- `do_fallback_to_scheduler`. -/
def doFallbackToScheduler : Bool :=
  B.count * B.dtype.size > B.broadcastScaleoutThreshold || B.env.transport = .ofi

/-- `root_node_idx`. -/
def rootNodeIdx : Nat := B.root / B.place.ppn

/-- `root_rank_in_node_comm`. -/
def rootRankInNodeComm : Nat := B.root - B.rootNodeIdx * B.place.ppn

/-- `const int buf_size = get_scaleout_host_buf_size()`, as it is compared and divided. -/
def bufSize : Nat := asSizeT (asInt B.env.hostBufSize)

/-- `max_iter_count`. -/
def maxIterCount : Nat :=
  if B.count * B.dtype.size ≤ B.bufSize then B.count else B.bufSize / B.dtype.size

/-- The flag of `broadcast_scaleout_sycl`, on the ranks that take part in it. -/
def scaleOutDone (iterCount r : Nat) : Bool :=
  B.place.localRank r ≠ B.rootRankInNodeComm || !(B.env.copyToHost && B.env.hostBufSize < iterCount * B.dtype.size)

/-- The scale-out phase, between the projected roots. -/
def scaleOut (c : Nat × Nat) (w : World α) : World α := fun r =>
  if B.place.localRank r = B.rootRankInNodeComm then
    B.place.r2rComm.broadcast (fun r => B.sendBuf r + c.1) (fun r => B.recvBuf r + c.1) c.2 B.rootNodeIdx w r
  else w r

/-- The scale-up phase, in place, from the new root. -/
def scaleUp (c : Nat × Nat) (w : World α) : World α :=
  if B.place.ppn > 1 then
    B.place.nodeComm.broadcast (fun r => B.recvBuf r + c.1) (fun r => B.recvBuf r + c.1) c.2 B.rootRankInNodeComm w
  else w

def chunk (c : Nat × Nat) (w : World α) : Except (Outcome (World α)) (World α) :=
  gate B.place.size (B.scaleOutDone c.2) w (.ok (B.scaleUp c (B.scaleOut c w)))

/-- `broadcast_sycl_multi_node`. -/
def run (w : World α) : Outcome (World α) :=
  if B.doFallbackToScheduler then .fallback w
  else if B.maxIterCount = 0 then .stopped
  else runChunks B.chunk (chunks B.count B.maxIterCount) w

def Right (w w' : World α) : Prop :=
  ∀ r < B.place.size, ∀ i < B.count, w' r ((B.recvBuf r).at i) = w B.root ((B.sendBuf B.root).at i)

/-- What is asked of a call: a root, buffers of the caller, a host buffer, below 2 GiB, that holds an element, a size that is
not left to the scheduler, and a number of chunks that an `int` holds. -/
structure Domain : Prop where
  root : B.root < B.place.size
  send : ∀ r, (B.sendBuf r).src.IsUser
  recv : ∀ r, (B.recvBuf r).src.IsUser
  apart : ∀ r, B.sendBuf r = B.recvBuf r ∨ (B.sendBuf r).src ≠ (B.recvBuf r).src
  host : B.env.hostBufSize < 2 ^ 31
  started : B.doFallbackToScheduler = false
  counted : Counted B.count B.maxIterCount

/-- The rank whose data arrives: the member of the rank-to-rank communicator of the projected root of the node. -/
def source (r : Nat) : Nat := B.place.r2rComm.member (B.place.nodeComm.member r B.rootRankInNodeComm) B.rootNodeIdx

variable {B}

theorem rootRankInNodeComm_lt : B.rootRankInNodeComm < B.place.ppn := by
  have hmod := Nat.mod_lt B.root B.place.ppn_pos
  have hdiv := Nat.div_add_mod B.root B.place.ppn
  rw [Nat.mul_comm] at hdiv
  unfold rootRankInNodeComm rootNodeIdx
  omega

theorem root_eq : B.rootNodeIdx * B.place.ppn + B.rootRankInNodeComm = B.root := by
  have := Nat.div_mul_le_self B.root B.place.ppn
  unfold rootRankInNodeComm rootNodeIdx
  omega

theorem rootNodeIdx_lt (h : B.root < B.place.size) : B.rootNodeIdx < B.place.nodes :=
  Nat.div_lt_of_lt_mul (by rwa [Nat.mul_comm])

variable {r x : Nat} {c : Nat × Nat} {w : World α} {a : BufSrc × Nat}

/-- **The data that arrives is that of the slot that the root names.** -/
theorem slot_source (hroot : B.root < B.place.size) (hr : r < B.place.size) : B.place.slot (B.source r) = B.root := by
  have hmem := B.place.nodeComm.member_lt r hr _ rootRankInNodeComm_lt
  rw [source, Placement.slot_r2rMember hmem (rootNodeIdx_lt hroot),
    show B.place.localRank (B.place.nodeComm.member r B.rootRankInNodeComm) = B.rootRankInNodeComm from
      B.place.localRank_nodeMember hr rootRankInNodeComm_lt]
  exact root_eq

theorem source_lt (hroot : B.root < B.place.size) (hr : r < B.place.size) : B.source r < B.place.size :=
  B.place.r2rComm.member_lt _ (B.place.nodeComm.member_lt r hr _ rootRankInNodeComm_lt) _ (rootNodeIdx_lt hroot)

/-! ## The loop -/

theorem scaleOut_at (hlocal : B.place.localRank r = B.rootRankInNodeComm)
    (hx : x < c.2) : B.scaleOut c w r ((B.recvBuf r + c.1).at x) =
      w (B.place.r2rComm.member r B.rootNodeIdx) ((B.sendBuf (B.place.r2rComm.member r B.rootNodeIdx) + c.1).at x) := by
  unfold scaleOut
  rw [if_pos hlocal]
  exact (writeAt_at ..).trans (if_pos hx)

theorem scaleOut_of_notMem (ha : a ∉ region (B.recvBuf r + c.1) c.2) : B.scaleOut c w r a = w r a := by
  unfold scaleOut
  split
  · exact writeAt_of_notMem ha
  · rfl

theorem scaleUp_of_notMem (ha : a ∉ region (B.recvBuf r + c.1) c.2) : B.scaleUp c w r a = w r a := by
  unfold scaleUp
  split
  · exact writeAt_of_notMem ha
  · rfl

/-- **A chunk** brings every rank the data of its source. -/
theorem scaleUp_at (hr : r < B.place.size) (hx : x < c.2) :
    B.scaleUp c (B.scaleOut c w) r ((B.recvBuf r + c.1).at x) = w (B.source r) ((B.sendBuf (B.source r) + c.1).at x) := by
  have hlocal : B.place.localRank (B.place.nodeComm.member r B.rootRankInNodeComm) = B.rootRankInNodeComm :=
    B.place.localRank_nodeMember hr rootRankInNodeComm_lt
  unfold scaleUp
  split
  · refine (writeAt_at ..).trans ((if_pos hx).trans ?_)
    exact scaleOut_at hlocal hx
  next hppn =>
    -- one rank on the node
    have hself : B.place.nodeComm.member r B.rootRankInNodeComm = r := by
      have hlt := B.place.localRank_lt hr
      have := rootRankInNodeComm_lt (B := B)
      rw [show B.rootRankInNodeComm = B.place.nodeComm.rank r by show _ = B.place.localRank r; omega]
      exact B.place.nodeComm.member_rank r hr
    have hat := scaleOut_at (c := c) (w := w) hlocal hx
    rw [hself] at hat
    rw [source, hself]
    exact hat

theorem Domain.maxIterCount_le (h : B.Domain) : B.maxIterCount * B.dtype.size ≤ B.env.hostBufSize := by
  have hint : B.bufSize = B.env.hostBufSize := by
    have := h.host
    rw [bufSize, asInt_of_lt this, asSizeT_of_nat (by omega)]
  unfold maxIterCount
  rw [hint]
  split
  next hle => exact hle
  · exact Nat.div_mul_le_self ..

theorem Domain.chunk_right (h : B.Domain) (hc : c ∈ chunks B.count B.maxIterCount) (w : World α) :
    ∃ w', B.chunk c w = .ok w' ∧
      ChunkRight B.place.size B.recvBuf (fun w r i => w (B.source r) ((B.sendBuf (B.source r)).at i)) c w w' := by
  refine ⟨_, if_pos fun r _ => ?_, ⟨fun r _ a _ ha => ?_, fun r hr i hlo hhi => ?_⟩⟩
  · have hfits := (Nat.mul_le_mul_right B.dtype.size (h.counted.le hc)).trans h.maxIterCount_le
    simp only [scaleOutDone, hfits.not_gt, decide_false, Bool.and_false, Bool.not_false, Bool.or_true]
  · exact (scaleUp_of_notMem ha).trans (scaleOut_of_notMem ha)
  · have hat := scaleUp_at (w := w) hr (show i - c.1 < c.2 by omega)
    simp only [CclBuffer.add_at, Nat.add_sub_cancel' hlo] at hat
    exact hat

/-- **The call**: every rank gets the data of its source. -/
theorem Domain.run_eq (h : B.Domain) (w : World α) : ∃ w', B.run w = .done w' ∧
    ∀ r < B.place.size, ∀ i < B.count, w' r ((B.recvBuf r).at i) = w (B.source r) ((B.sendBuf (B.source r)).at i) := by
  have hresult : Elementwise B.place.size B.count B.recvBuf
      fun (w : World α) r i => w (B.source r) ((B.sendBuf (B.source r)).at i) := by
    intro c w w' _ honly r hr i _ hi
    refine honly _ (source_lt h.root hr) _ (h.send _) fun hc => ?_
    rcases h.apart (B.source r) with heq | hne
    · rw [heq, at_mem_region_add] at hc
      omega
    · exact hne hc.1
  obtain ⟨w', hright, hrun⟩ := runChunks_append hresult h.recv h.counted.tiles (le_rfl)
    (fun c hc w => h.chunk_right hc w) w
  have hall := hrun []
  rw [List.append_nil] at hall
  refine ⟨w', ?_, fun r hr i hi => hright.right r hr i (Nat.zero_le _) (by show i < 0 + (B.count - 0); omega)⟩
  unfold run
  rw [if_neg (ne_true_of_eq_false h.started), if_neg h.counted.max_pos.ne', hall]
  rfl

end SyclBroadcast

end OneCcl
