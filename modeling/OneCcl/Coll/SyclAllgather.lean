import OneCcl.Coll.SyclScaleout

/-!
# The SYCL allgather on several nodes

`allgatherv_sycl_multi_node_small_msg` and `allgatherv_sycl_multi_node_large_msg`. In each chunk the ranks at one place of
their nodes gather between the nodes, and then the ranks of a node gather once for every node. A small message is gathered
into the device buffer, and a large one into the receive buffer itself, at the blocks of the ranks it comes from, or into
the host buffer and from there to those blocks.

The gathers on the node put what came from the `i`-th node and the `k`-th rank to block `i * ppn + k`. With the ranks numbered
node by node that is the block of the rank it comes from, and the blocks that a gather reads are those that it writes
(`Domain.run_right`).
-/

namespace OneCcl

open List CclBuffer Split

variable {count maxCount k r b i j : Nat} {σ : Type} {step : σ → Nat → σ} {src : Nat → CclBuffer} {a : BufSrc × Nat}
  {buf : CclBuffer} {c : Nat × Nat}

/-! ## Chunks counted by `int`s -/

/-- The chunks of a loop whose offset and count are `int`s. A negative one is the end of the program. -/
def intChunks (count maxCount : Nat) (nchunks : Int) : Nat → Nat → Int → Option (List (Nat × Nat))
  | 0, _, _ => some []
  | k + 1, iter, sendOffset =>
    let packCount := asInt (if (iter : Int) < nchunks - 1 then maxCount else asSizeT (count - sendOffset))
    if sendOffset < 0 ∨ packCount < 0 then none
    else (intChunks count maxCount nchunks k (iter + 1) (Int.bmod (sendOffset + packCount) (2 ^ 32))).map
      ((sendOffset.toNat, packCount.toNat) :: ·)

/-- **Below 2 Gi elements the `int`s hold what they should.** -/
theorem intChunks_eq {m : Nat} (hcount : count < 2 ^ 31) (hm : m * maxCount < count) {iter : Nat}
    (hk : iter + k = m + 1) : intChunks count maxCount (m + 1) k iter ((iter * maxCount : Nat) : Int) =
      some ((range k).map fun j =>
        ((iter + j) * maxCount, if iter + j < m then maxCount else count - (iter + j) * maxCount)) := by
  induction k generalizing iter with
  | zero => rfl
  | succ k ih =>
    have hle : iter * maxCount ≤ m * maxCount := Nat.mul_le_mul_right _ (by omega)
    have hpack : asInt (if (iter : Int) < ((m : Int) + 1) - 1 then maxCount
          else asSizeT (count - ((iter * maxCount : Nat) : Int))) =
        ((if iter < m then maxCount else count - iter * maxCount : Nat) : Int) := by
      by_cases hlt : iter < m
      · have hfull := row_le hlt maxCount
        rw [if_pos (by omega), if_pos hlt, asInt_of_lt (by omega)]
      · rw [if_neg (by omega), if_neg hlt, show (count : Int) - ((iter * maxCount : Nat) : Int) =
          ((count - iter * maxCount : Nat) : Int) by omega, asSizeT_of_nat (by omega), asInt_of_lt (by omega)]
    rw [intChunks, hpack, if_neg (by omega), range_succ_eq_map, map_cons, map_map]
    by_cases hlt : iter < m
    · have hnext : Int.bmod (((iter * maxCount : Nat) : Int) +
            ((if iter < m then maxCount else count - iter * maxCount : Nat) : Int))
          (2 ^ 32) = (((iter + 1) * maxCount : Nat) : Int) := by
        have hfull := row_le hlt maxCount
        rw [if_pos hlt, Nat.add_mul, Nat.one_mul, Int.bmod_eq_of_le (by omega) (by omega)]
        omega
      rw [hnext, ih (by omega)]
      refine congrArg some (congrArg₂ cons ?_ ?_)
      · rw [Int.toNat_natCast, Int.toNat_natCast, Nat.add_zero]
      · refine map_congr_left fun j _ => ?_
        simp only [Function.comp_apply, Nat.succ_eq_add_one, show iter + 1 + j = iter + (j + 1) by omega]
    · obtain rfl : k = 0 := by omega
      show some [_] = some [_]
      rw [Int.toNat_natCast, Int.toNat_natCast, Nat.add_zero]

def allIntChunks (count maxCount : Nat) : Option (List (Nat × Nat)) :=
  let nchunks := asInt ((count + maxCount - 1) / maxCount)
  intChunks count maxCount nchunks nchunks.toNat 0 0

theorem allIntChunks_eq (hcount : count < 2 ^ 31) (h : Counted count maxCount) :
    allIntChunks count maxCount = some (chunks count maxCount) := by
  obtain ⟨m, hm, -, heq⟩ := h.chunks_eq
  have hlen := congrArg length heq
  rw [chunks_of_asInt (asInt_of_lt h.lt)] at hlen
  simp only [length_map, length_range, Int.toNat_natCast, length_append, length_singleton] at hlen
  have hn : asInt ((count + maxCount - 1) / maxCount) = (m : Int) + 1 := by
    rw [asInt_of_lt h.lt, hlen]
    rfl
  have hints := intChunks_eq hcount hm (k := m + 1) (Nat.zero_add _)
  rw [Nat.zero_mul] at hints
  show intChunks count maxCount (asInt _) (asInt _).toNat 0 0 = _
  rw [chunks_of_asInt hn, hn, show ((m : Int) + 1).toNat = m + 1 by omega]
  refine hints.trans (congrArg some (map_congr_left fun j _ => ?_))
  rw [Nat.zero_add]
  by_cases hj : j < m
  · rw [if_pos hj, if_pos (by omega)]
  · rw [if_neg hj, if_neg (by omega)]

/-! ## The function -/

/-- `allgatherv_scaleout_algo`. -/
inductive AllgathervScaleoutAlgo where
  | direct
  | ring
  deriving DecidableEq, Repr

/-- `allgatherv_auto_select_tune_attr`, outside of graph recording. -/
def allgathervAutoSelectAlgo (transport : AtlTransport) (size commSize : Nat) : AllgathervScaleoutAlgo :=
  if transport ≠ .mpi then .ring
  else if commSize < 4 ∧ (size < 512 * 1024 ∨ size > 128 * 1024 * 1024) ∨
      commSize ≥ 4 ∧ commSize < 8 ∧ (size < 2 * 1024 * 1024 ∨ size > 32 * 1024 * 1024) ∨
      commSize ≥ 8 ∧ (size < 2 * 1024 * 1024 ∨ size > 9 * 1024 * 1024) then .direct
  else .ring

/-- What the caller passes, and the settings that only the allgather reads. -/
structure SyclAllgather (α : Type) where
  env : SyclEnv
  allgathervScaleoutAlgo : Option AllgathervScaleoutAlgo
  allgathervScaleoutOverlap : Bool
  allgathervOverlapBufSize : Nat
  place : Placement
  dtype : Dtype
  sendBuf : Nat → CclBuffer
  recvBuf : Nat → CclBuffer
  sendCount : Nat

namespace SyclAllgather

variable {α : Type} (G : SyclAllgather α)

/-- `allgatherv_select_tune_attr`. -/
def selectAlgo (count : Nat) : AllgathervScaleoutAlgo :=
  match G.allgathervScaleoutAlgo with
  | none => allgathervAutoSelectAlgo G.env.transport (count * G.dtype.size) G.place.nodes
  | some algo => algo

/-- The flag of `allgatherv_scaleout_sycl`. -/
def scaleOutDone (algo : AllgathervScaleoutAlgo) (packCount : Nat) : Bool :=
  !(algo = .direct && G.env.copyToHost && G.env.hostBufSize < packCount * G.place.nodes * G.dtype.size)

/-- The gather on the nodes for the `i`-th node, from `src` on each rank. -/
def gather (src : Nat → CclBuffer) (c : Nat × Nat) (i : Nat) (w : World α) : World α :=
  G.place.nodeComm.allgatherv src (fun r => G.recvBuf r + i * G.place.ppn * G.sendCount) (fun _ => c.2)
    (fun k => k * G.sendCount + c.1) w

/-! ### Small messages -/

/-- `max_pack_count` for small messages. -/
def maxPackCountSmall : Nat :=
  if G.sendCount * G.place.nodes * G.dtype.size ≤ G.env.deviceBufInt then G.sendCount
  else G.env.deviceBufInt / G.place.nodes / G.dtype.size

def afterSmall (c : Nat × Nat) (w : World α) : World α :=
  (range G.place.nodes).foldl (fun w i => G.gather (fun _ => scaleoutDeviceBuf + i * c.2) c i w)
    (G.place.r2rComm.allgatherv (fun r => G.sendBuf r + c.1) (fun _ => scaleoutDeviceBuf) (fun _ => c.2) (fun i => i * c.2) w)

/-- One turn of the loop. A write beyond the device buffer is fatal. -/
def chunkSmall (c : Nat × Nat) (w : World α) : Except (Outcome (World α)) (World α) :=
  if G.env.deviceBufSize < c.2 * G.place.nodes * G.dtype.size then .error .stopped
  else gate G.place.size (fun _ => G.scaleOutDone (G.selectAlgo c.2) c.2) w (.ok (G.afterSmall c w))

/-! ### Large messages -/

def stagesOnHost : Bool := G.selectAlgo G.sendCount = .direct && G.env.copyToHost

/-- `max_pack_count` for large messages. -/
def maxPackCountLarge : Nat :=
  match G.selectAlgo G.sendCount with
  | .direct =>
    let scaleoutBufSize :=
      if G.allgathervScaleoutOverlap then min G.allgathervOverlapBufSize G.env.hostBufSize else G.env.hostBufSize
    if G.sendCount * G.place.nodes * G.dtype.size ≤ scaleoutBufSize then G.sendCount
    else scaleoutBufSize / G.place.nodes / G.dtype.size
  | .ring => G.sendCount

/-- `scaleout_offsets[i]`: by the number of the rank in the communicator. -/
def scaleoutOffset (c : Nat × Nat) (r i : Nat) : Nat := G.place.r2rComm.member r i * G.sendCount + c.1

/-- The scale-out: into the host buffer, or to the blocks of the ranks. -/
def scaleOutLarge (c : Nat × Nat) (w : World α) : World α :=
  if G.stagesOnHost then
    G.place.r2rComm.allgatherv (fun r => G.sendBuf r + c.1) (fun _ => scaleoutHostBuf) (fun _ => c.2) (fun i => i * c.2) w
  else fun r =>
    G.place.r2rComm.allgatherv (fun r => G.sendBuf r + c.1) G.recvBuf (fun _ => c.2) (G.scaleoutOffset c r) w r

/-- The copy from the host buffer, if the scale-out stages there. -/
def copyIn (c : Nat × Nat) (i : Nat) (w : World α) : World α :=
  if G.stagesOnHost then fun r =>
    writeAt (G.recvBuf r + G.scaleoutOffset c r i) c.2 (fun x => w r (scaleoutHostBuf.at (i * c.2 + x))) (w r)
  else w

/-- What is done for the `i`-th node. -/
def stepLarge (c : Nat × Nat) (w : World α) (i : Nat) : World α :=
  let w := G.copyIn c i w
  if G.place.ppn > 1 then G.gather (fun r => G.recvBuf r + G.scaleoutOffset c r i) c i w else w

def afterLarge (c : Nat × Nat) (w : World α) : World α :=
  (range G.place.nodes).foldl (G.stepLarge c) (G.scaleOutLarge c w)

def chunkLarge (c : Nat × Nat) (w : World α) : Except (Outcome (World α)) (World α) :=
  gate G.place.size (fun _ => G.scaleOutDone (G.selectAlgo G.sendCount) c.2) w (.ok (G.afterLarge c w))

def isSmall : Bool := G.sendCount * G.dtype.size ≤ G.env.allgathervSmallThreshold

/-- `max_pack_count`. -/
def maxPackCount : Nat := if G.isSmall then G.maxPackCountSmall else G.maxPackCountLarge

def chunk (c : Nat × Nat) (w : World α) : Except (Outcome (World α)) (World α) :=
  if G.isSmall then G.chunkSmall c w else G.chunkLarge c w

/-- `allgather_sycl`, on several nodes. -/
def run (w : World α) : Outcome (World α) :=
  if G.maxPackCount = 0 then .stopped
  else
    match allIntChunks G.sendCount G.maxPackCount with
    | none => .stopped
    | some cs => runChunks G.chunk cs w

/-- Every rank has the data of every rank, at its block. -/
def Right (w w' : World α) : Prop :=
  ∀ r < G.place.size, ∀ b < G.place.size, ∀ i < G.sendCount,
    w' r ((G.recvBuf r).at (b * G.sendCount + i)) = w b ((G.sendBuf b).at i)

/-- What is asked of a call: elements that an `int` counts, buffers of the caller, a device buffer below 2 GiB, a staging
buffer that holds an element of every node, and a scale-out that reports that it is done. -/
structure Domain : Prop where
  count : G.sendCount < 2 ^ 31
  counted : Counted G.sendCount G.maxPackCount
  send : ∀ r, (G.sendBuf r).src.IsUser
  recv : ∀ r, (G.recvBuf r).src.IsUser
  apart : ∀ r, G.sendBuf r = G.recvBuf r + r * G.sendCount ∨ (G.sendBuf r).src ≠ (G.recvBuf r).src
  device : G.env.deviceBufSize < 2 ^ 31
  done : ∀ c ∈ chunks G.sendCount G.maxPackCount,
    G.scaleOutDone (G.selectAlgo (if G.isSmall then c.2 else G.sendCount)) c.2 = true

/-! ## A chunk -/

theorem foldl_steps (ready : Nat → σ → Prop) {done : Nat → σ → Prop} {n : Nat}
    (hstep : ∀ i < n, ∀ w, ready i w → done i (step w i))
    (hready : ∀ i < n, ∀ j < n, j ≠ i → ∀ w, ready j w → ready j (step w i))
    (hdone : ∀ i < n, ∀ j < n, j ≠ i → ∀ w, done j w → done j (step w i)) {w : σ} (hw : ∀ i < n, ready i w) :
    ∀ i < n, done i ((range n).foldl step w) := by
  have hupto : ∀ k ≤ n, (∀ i < k, done i ((range k).foldl step w)) ∧
      ∀ i < n, k ≤ i → ready i ((range k).foldl step w) := by
    intro k hk
    induction k with
    | zero => exact ⟨nofun, fun i hi _ => hw i hi⟩
    | succ k ih =>
      obtain ⟨hdone', hready'⟩ := ih (by omega)
      rw [range_succ, foldl_append, foldl_cons, foldl_nil]
      refine ⟨fun i hi => ?_, fun i hi hki => hready k hk i hi (by omega) _ (hready' i hi (by omega))⟩
      rcases Nat.lt_succ_iff_lt_or_eq.mp hi with hi | rfl
      · exact hdone k hk i (by omega) (by omega) _ (hdone' i hi)
      · exact hstep i hk _ (hready' i hk (le_rfl))
  exact (hupto n (le_rfl)).1

theorem foldl_frame {τ : Type} (f : σ → τ) {l : List Nat} (h : ∀ i ∈ l, ∀ w, f (step w i) = f w) (w : σ) :
    f (l.foldl step w) = f w := by
  induction l generalizing w with
  | nil => rfl
  | cons i l ih =>
    rw [foldl_cons, ih fun j hj => h j (mem_cons_of_mem _ hj)]
    exact h i mem_cons_self w

section

variable {G} {c : Nat × Nat} (hle : c.1 + c.2 ≤ G.sendCount)

def piece (G : SyclAllgather α) (c : Nat × Nat) (r b : Nat) : Set (BufSrc × Nat) :=
  region (G.recvBuf r + (b * G.sendCount + c.1)) c.2

include hle in
theorem at_notMem_piece {b' : Nat} (hi : i < G.sendCount) (h : b ≠ b' ∨ i < c.1 ∨ c.1 + c.2 ≤ i) :
    (G.recvBuf r).at (b * G.sendCount + i) ∉ G.piece c r b' := by
  unfold piece
  rw [at_mem_region_add]
  rintro ⟨hlo, hhi⟩
  by_cases hb : b = b'
  · subst hb
    omega
  · have := rows_apart hb G.sendCount
    omega

theorem device_notMem_piece (hrecv : ∀ r, (G.recvBuf r).src.IsUser) : scaleoutDeviceBuf.at i ∉ G.piece c r b :=
  fun h => (hrecv r).ne_alloc 0 0 h.1.symm

theorem host_notMem_piece (hrecv : ∀ r, (G.recvBuf r).src.IsUser) : scaleoutHostBuf.at i ∉ G.piece c r b :=
  fun h => (hrecv r).ne_alloc 0 1 h.1.symm

variable {w w₀ w' : World α}

include hle in
/-- **A gather on the node** brings the piece of the `k`-th rank to block `i * ppn + k`. -/
theorem gather_at {x : Nat} (hk : k < G.place.ppn) (hx : x < c.2) :
    G.gather src c i w r ((G.recvBuf r).at ((i * G.place.ppn + k) * G.sendCount + (c.1 + x))) =
      w (G.place.nodeComm.member r k) ((src (G.place.nodeComm.member r k)).at x) := by
  have hdisj : ∀ j < G.place.nodeComm.size, ∀ k < G.place.nodeComm.size, j ≠ k →
      j * G.sendCount + c.1 + c.2 ≤ k * G.sendCount + c.1 ∨ k * G.sendCount + c.1 + c.2 ≤ j * G.sendCount + c.1 := by
    intro j _ k _ hne
    have := rows_apart hne G.sendCount
    omega
  have hat : G.gather src c i w r ((G.recvBuf r + i * G.place.ppn * G.sendCount).at (k * G.sendCount + c.1 + x)) = _ :=
    allgatherv_at hdisj hk hx
  rw [add_at] at hat
  rw [show (i * G.place.ppn + k) * G.sendCount + (c.1 + x) =
    i * G.place.ppn * G.sendCount + (k * G.sendCount + c.1 + x) by rw [Nat.add_mul]; omega]
  exact hat

theorem gather_of_notMem (ha : ∀ k < G.place.ppn, a ∉ G.piece c r (i * G.place.ppn + k)) :
    G.gather src c i w r a = w r a := by
  refine allgatherv_of_notMem fun k hk => ?_
  have hpiece := ha k hk
  rw [piece, show (i * G.place.ppn + k) * G.sendCount + c.1 = i * G.place.ppn * G.sendCount + (k * G.sendCount + c.1) by
    rw [Nat.add_mul]; omega, ← add_add] at hpiece
  exact hpiece

/-- A rank has the pieces of the ranks of the `i`-th node. -/
def NodeDone (G : SyclAllgather α) (c : Nat × Nat) (w₀ : World α) (i : Nat) (w : World α) : Prop :=
  ∀ r < G.place.size, ∀ k < G.place.ppn, ∀ x < c.2,
    w r ((G.recvBuf r).at ((i * G.place.ppn + k) * G.sendCount + (c.1 + x))) =
      w₀ (i * G.place.ppn + k) ((G.sendBuf (i * G.place.ppn + k)).at (c.1 + x))

/-- Each rank has, at `src`, the piece of the rank at its place of the `i`-th node. -/
def NodeReady (G : SyclAllgather α) (c : Nat × Nat) (src : Nat → CclBuffer) (w₀ : World α) (i : Nat) (w : World α) : Prop :=
  ∀ r < G.place.size, ∀ x < c.2, w r ((src r).at x) =
    w₀ (i * G.place.ppn + G.place.localRank r) ((G.sendBuf (i * G.place.ppn + G.place.localRank r)).at (c.1 + x))

include hle in
theorem NodeDone.gather (h : G.NodeReady c src w₀ i w) : G.NodeDone c w₀ i (G.gather src c i w) := by
  intro r hr k hk x hx
  have hmem := G.place.nodeComm.member_lt r hr k hk
  have hlocal := G.place.localRank_nodeMember hr hk
  rw [gather_at hle hk hx, h _ hmem x hx, hlocal]

theorem block_ne {l : Nat} (hk : k < G.place.ppn) (hl : l < G.place.ppn) (hne : j ≠ i) :
    j * G.place.ppn + l ≠ i * G.place.ppn + k := by
  intro h
  have hdiv := congrArg (· / G.place.ppn) h
  simp only [Nat.mul_comm _ G.place.ppn, Nat.mul_add_div G.place.ppn_pos, Nat.div_eq_of_lt hk, Nat.div_eq_of_lt hl] at hdiv
  omega

include hle in
theorem NodeDone.of_frame (hne : j ≠ i)
    (hframe : ∀ r < G.place.size, ∀ a, (∀ k < G.place.ppn, a ∉ G.piece c r (i * G.place.ppn + k)) → w' r a = w r a)
    (h : G.NodeDone c w₀ j w) : G.NodeDone c w₀ j w' := by
  intro r hr l hl x hx
  rw [hframe r hr _ fun k hk => at_notMem_piece hle (by omega) (.inl (block_ne hk hl hne))]
  exact h r hr l hl x hx

theorem NodeReady.of_frame
    (hframe : ∀ r < G.place.size, ∀ a, (∀ k < G.place.ppn, a ∉ G.piece c r (i * G.place.ppn + k)) → w' r a = w r a)
    (hsrc : ∀ r < G.place.size, ∀ x < c.2, ∀ k < G.place.ppn, (src r).at x ∉ G.piece c r (i * G.place.ppn + k))
    (h : G.NodeReady c src w₀ j w) : G.NodeReady c src w₀ j w' := by
  intro r hr x hx
  rw [hframe r hr _ (hsrc r hr x hx)]
  exact h r hr x hx

theorem nodeReady_of_consecutive (hplace : G.place.NodeByNode) (hi : i < G.place.nodes) :
    G.NodeReady c (fun _ => buf + i * c.2) w i
      (G.place.r2rComm.allgatherv (fun r => G.sendBuf r + c.1) (fun _ => buf) (fun _ => c.2) (fun i => i * c.2) w) := by
  intro r hr x hx
  have hdisj : ∀ j < G.place.r2rComm.size, ∀ k < G.place.r2rComm.size, j ≠ k →
      j * c.2 + c.2 ≤ k * c.2 ∨ k * c.2 + c.2 ≤ j * c.2 := by
    intro j _ k _ hne
    exact rows_apart hne c.2
  have hat : G.place.r2rComm.allgatherv (fun r => G.sendBuf r + c.1) (fun _ => buf) (fun _ => c.2) (fun i => i * c.2) w r
      (buf.at (i * c.2 + x)) = _ := allgatherv_at hdisj hi hx
  rw [add_at, hat, add_at, hplace.r2rMember hr hi]

/-- What a chunk does: it brings every rank the pieces of all ranks, and changes nothing else of the callers. -/
structure PiecesRight (G : SyclAllgather α) (c : Nat × Nat) (w w' : World α) : Prop where
  only : ∀ r < G.place.size, ∀ a, a.1.IsUser → (∀ b < G.place.size, a ∉ G.piece c r b) → w' r a = w r a
  right : ∀ i < G.place.nodes, G.NodeDone c w i w'

theorem block_lt (hi : i < G.place.nodes) (hk : k < G.place.ppn) : i * G.place.ppn + k < G.place.size := by
  have := row_le hi G.place.ppn
  show _ < G.place.nodes * G.place.ppn
  omega

theorem r2r_of_user (hbuf : ∃ i j, buf.src = .alloc i j) (ha : a.1.IsUser) :
    G.place.r2rComm.allgatherv (fun r => G.sendBuf r + c.1) (fun _ => buf) (fun _ => c.2)
      (fun i => i * c.2) w r a = w r a := by
  obtain ⟨i, j, hsrc⟩ := hbuf
  exact allgatherv_of_notMem fun k _ h => ha.ne_alloc i j (h.1.trans hsrc)

include hle in
theorem afterSmall_right (hplace : G.place.NodeByNode) (hrecv : ∀ r, (G.recvBuf r).src.IsUser) (w : World α) :
    G.PiecesRight c w (G.afterSmall c w) := by
  unfold afterSmall
  constructor
  · intro r _ a hu ha
    rw [foldl_frame (fun w : World α => w r a) fun i hi w => gather_of_notMem fun k hk =>
      ha _ (block_lt (mem_range.mp hi) hk)]
    exact r2r_of_user ⟨0, 0, rfl⟩ hu
  · refine foldl_steps (fun i => G.NodeReady c (fun _ => scaleoutDeviceBuf + i * c.2) w i) ?_ ?_ ?_ ?_
    · intro i _ w' hw'
      exact NodeDone.gather hle hw'
    · intro i _ j _ _ w' hw'
      refine hw'.of_frame (fun r _ a ha => gather_of_notMem ha) fun r _ x _ k _ => ?_
      rw [add_at]
      exact device_notMem_piece hrecv
    · intro i _ j _ hne w' hw'
      exact hw'.of_frame hle hne fun r _ a ha => gather_of_notMem ha
    · intro i hi
      exact nodeReady_of_consecutive hplace hi

/-! ### Large messages -/

/-- Where the piece for the `i`-th node is before its step. -/
def stagedAt (G : SyclAllgather α) (c : Nat × Nat) (i r : Nat) : CclBuffer :=
  if G.stagesOnHost then scaleoutHostBuf + i * c.2 else G.recvBuf r + G.scaleoutOffset c r i

theorem NodeReady.copyIn (h : G.NodeReady c (G.stagedAt c i) w₀ i w) :
    G.NodeReady c (fun r => G.recvBuf r + G.scaleoutOffset c r i) w₀ i (G.copyIn c i w) := by
  intro r hr x hx
  have hstaged := h r hr x hx
  unfold stagedAt at hstaged
  unfold SyclAllgather.copyIn
  cases hhost : G.stagesOnHost with
  | true =>
    rw [hhost, if_pos rfl, add_at] at hstaged
    rw [if_pos rfl, writeAt_at, if_pos hx]
    exact hstaged
  | false =>
    rw [hhost] at hstaged
    exact hstaged

section

variable (hplace : G.place.NodeByNode)

include hplace

theorem scaleoutOffset_eq (hr : r < G.place.size) (hi : i < G.place.nodes) :
    G.scaleoutOffset c r i = (i * G.place.ppn + G.place.localRank r) * G.sendCount + c.1 := by
  rw [scaleoutOffset, hplace.r2rMember hr hi]

theorem copyIn_of_notMem (hr : r < G.place.size) (hi : i < G.place.nodes)
    (ha : ∀ k < G.place.ppn, a ∉ G.piece c r (i * G.place.ppn + k)) : G.copyIn c i w r a = w r a := by
  unfold copyIn
  split
  · refine writeAt_of_notMem ?_
    rw [scaleoutOffset_eq hplace hr hi]
    exact ha _ (G.place.localRank_lt hr)
  · rfl

theorem stepLarge_of_notMem (hr : r < G.place.size) (hi : i < G.place.nodes)
    (ha : ∀ k < G.place.ppn, a ∉ G.piece c r (i * G.place.ppn + k)) : G.stepLarge c w i r a = w r a := by
  unfold stepLarge
  split
  · exact (gather_of_notMem ha).trans (copyIn_of_notMem hplace hr hi ha)
  · exact copyIn_of_notMem hplace hr hi ha

include hle in
theorem NodeDone.stepLarge (hi : i < G.place.nodes) (h : G.NodeReady c (G.stagedAt c i) w₀ i w) :
    G.NodeDone c w₀ i (G.stepLarge c w i) := by
  have hready := h.copyIn
  unfold SyclAllgather.stepLarge
  split
  · exact NodeDone.gather hle hready
  next hppn =>
    -- with one rank on a node the piece is where it belongs
    intro r hr k hk x hx
    have hlocal := G.place.localRank_lt hr
    obtain rfl : k = G.place.localRank r := by omega
    have hat := hready r hr x hx
    rw [add_at, scaleoutOffset_eq hplace hr hi, Nat.add_assoc] at hat
    exact hat

include hle in
theorem nodeReady_scaleOutLarge (hi : i < G.place.nodes) : G.NodeReady c (G.stagedAt c i) w i (G.scaleOutLarge c w) := by
  unfold stagedAt scaleOutLarge
  cases hhost : G.stagesOnHost with
  | true => exact nodeReady_of_consecutive hplace hi
  | false =>
    intro r hr x hx
    have hdisj : ∀ j < G.place.r2rComm.size, ∀ k < G.place.r2rComm.size, j ≠ k →
        G.scaleoutOffset c r j + c.2 ≤ G.scaleoutOffset c r k ∨ G.scaleoutOffset c r k + c.2 ≤ G.scaleoutOffset c r j := by
      intro j hj k hk hne
      unfold scaleoutOffset
      have := rows_apart (fun h => hne (G.place.r2rComm.member_injective hr hj hk h)) G.sendCount
      omega
    have hat : G.place.r2rComm.allgatherv (fun r => G.sendBuf r + c.1) G.recvBuf (fun _ => c.2) (G.scaleoutOffset c r) w r
        ((G.recvBuf r).at (G.scaleoutOffset c r i + x)) = _ := allgatherv_at hdisj hi hx
    rw [add_at, hplace.r2rMember hr hi] at hat
    simp only [Bool.false_eq_true, if_false]
    rw [add_at]
    exact hat

theorem scaleOutLarge_of_notMem (hr : r < G.place.size) (hu : a.1.IsUser)
    (ha : ∀ b < G.place.size, a ∉ G.piece c r b) : G.scaleOutLarge c w r a = w r a := by
  unfold scaleOutLarge
  split
  · exact r2r_of_user ⟨0, 1, rfl⟩ hu
  · refine allgatherv_of_notMem fun i hi => ?_
    rw [scaleoutOffset_eq hplace hr hi]
    exact ha _ (block_lt hi (G.place.localRank_lt hr))

include hle in
theorem afterLarge_right (hrecv : ∀ r, (G.recvBuf r).src.IsUser) (w : World α) : G.PiecesRight c w (G.afterLarge c w) := by
  unfold afterLarge
  constructor
  · intro r hr a hu ha
    rw [foldl_frame (fun w : World α => w r a) fun i hi w => stepLarge_of_notMem hplace hr (mem_range.mp hi) fun k hk =>
      ha _ (block_lt (mem_range.mp hi) hk)]
    exact scaleOutLarge_of_notMem hplace hr hu ha
  · refine foldl_steps (fun i => G.NodeReady c (G.stagedAt c i) w i) ?_ ?_ ?_ ?_
    · intro i hi w' hw'
      exact NodeDone.stepLarge hle hplace hi hw'
    · intro i hi j hj hne w' hw'
      refine hw'.of_frame (fun r hr a ha => stepLarge_of_notMem hplace hr hi ha) fun r hr x hx k hk => ?_
      unfold stagedAt
      split
      · rw [add_at]
        exact host_notMem_piece hrecv
      · rw [add_at, scaleoutOffset_eq hplace hr hj, Nat.add_assoc]
        exact at_notMem_piece hle (by omega) (.inl (block_ne hk (G.place.localRank_lt hr) hne))
    · intro i hi j _ hne w' hw'
      exact hw'.of_frame hle hne fun r hr a ha => stepLarge_of_notMem hplace hr hi ha
    · intro i hi
      exact nodeReady_scaleOutLarge hle hplace hi

end

end

/-! ## The loop -/

variable {G}

/-- Up to `off` every rank has the data of all ranks, and from there on the send buffers are as they were. -/
structure GatheredTo (G : SyclAllgather α) (w₀ : World α) (off : Nat) (w : World α) : Prop where
  right : ∀ r < G.place.size, ∀ b < G.place.size, ∀ i < off,
    w r ((G.recvBuf r).at (b * G.sendCount + i)) = w₀ b ((G.sendBuf b).at i)
  send : ∀ r < G.place.size, ∀ i < G.sendCount, off ≤ i → w r ((G.sendBuf r).at i) = w₀ r ((G.sendBuf r).at i)

variable {w w₀ : World α}

/-- **One turn of the loop.** -/
theorem GatheredTo.chunk (h : G.Domain) (hle : c.1 + c.2 ≤ G.sendCount) {w' : World α}
    (hw : G.GatheredTo w₀ c.1 w) (hw' : G.PiecesRight c w w') : G.GatheredTo w₀ (c.1 + c.2) w' := by
  constructor
  · intro r hr b hb i hi
    rcases lt_or_ge i c.1 with hlt | hge
    · rw [hw'.only r hr _ (h.recv r) fun b' _ => at_notMem_piece hle (by omega) (.inr (.inl hlt))]
      exact hw.right r hr b hb i hlt
    · -- the block is that of a rank of some node
      have hdiv : b / G.place.ppn < G.place.nodes := Nat.div_lt_of_lt_mul (by rw [Nat.mul_comm]; exact hb)
      have hmod : b % G.place.ppn < G.place.ppn := Nat.mod_lt b G.place.ppn_pos
      have hb' : b / G.place.ppn * G.place.ppn + b % G.place.ppn = b := by rw [Nat.mul_comm, Nat.div_add_mod]
      have hat := hw'.right _ hdiv r hr _ hmod (i - c.1) (by omega)
      rw [hb', Nat.add_sub_cancel' hge] at hat
      rw [hat]
      exact hw.send b hb i (by omega) hge
  · intro r hr i hi hge
    rw [hw'.only r hr _ (h.send r) fun b' _ => ?_]
    · exact hw.send r hr i hi (by omega)
    rcases h.apart r with heq | hne
    · rw [heq, add_at]
      exact at_notMem_piece hle hi (.inr (.inr hge))
    · exact fun hc => hne hc.1

theorem Domain.chunk_eq (h : G.Domain) (hplace : G.place.NodeByNode) (hc : c ∈ chunks G.sendCount G.maxPackCount)
    (w : World α) : ∃ w', G.chunk c w = .ok w' ∧ G.PiecesRight c w w' := by
  have hle := (h.counted.tiles.mem hc).2
  have hdone := h.done c hc
  have hpack := h.counted.le hc
  unfold chunk
  unfold maxPackCount at hpack
  cases hsmall : G.isSmall with
  | true =>
    rw [hsmall, if_pos rfl] at hdone hpack
    refine ⟨G.afterSmall c w, ?_, afterSmall_right hle hplace h.recv w⟩
    have hfits : c.2 * G.place.nodes * G.dtype.size ≤ G.env.deviceBufSize := by
      unfold maxPackCountSmall at hpack
      rw [SyclEnv.deviceBufInt_of_lt h.device] at hpack
      split at hpack
      next hall =>
        exact (Nat.mul_le_mul_right _ (Nat.mul_le_mul_right _ hpack)).trans hall
      · rw [Nat.div_div_eq_div_mul, Nat.le_div_iff_mul_le (Nat.mul_pos G.place.nodes_pos G.dtype.size_pos)] at hpack
        rwa [Nat.mul_assoc]
    rw [if_pos rfl, chunkSmall, if_neg hfits.not_gt]
    exact if_pos fun _ _ => hdone
  | false =>
    rw [hsmall, if_neg Bool.false_ne_true] at hdone
    refine ⟨G.afterLarge c w, ?_, afterLarge_right hle hplace h.recv w⟩
    rw [if_neg Bool.false_ne_true]
    exact if_pos fun _ _ => hdone

theorem Domain.runChunks_eq (h : G.Domain) (hplace : G.place.NodeByNode) {cs : List (Nat × Nat)} {lo hi : Nat}
    (ht : Tiles lo cs hi) (hhi : hi ≤ G.sendCount) (hcs : ∀ c ∈ cs, c ∈ chunks G.sendCount G.maxPackCount)
    (hw : G.GatheredTo w₀ lo w) : ∃ w', runChunks G.chunk cs w = .done w' ∧ G.GatheredTo w₀ hi w' := by
  induction cs generalizing lo w with
  | nil =>
    obtain rfl : lo = hi := ht
    exact ⟨w, rfl, hw⟩
  | cons c cs ih =>
    obtain ⟨rfl, ht⟩ := ht
    have hle := ht.le
    obtain ⟨w₁, hrun, hright⟩ := h.chunk_eq hplace (hcs c mem_cons_self) w
    obtain ⟨w', hrun', hw'⟩ := ih ht (fun c hc => hcs c (mem_cons_of_mem _ hc)) (hw.chunk h (by omega) hright)
    exact ⟨w', (runChunks_cons_ok hrun cs).trans hrun', hw'⟩

/-- **The call, with the ranks numbered node by node**: every rank gets the data of all ranks. -/
theorem Domain.run_right (h : G.Domain) (hplace : G.place.NodeByNode) (w : World α) :
    ∃ w', G.run w = .done w' ∧ G.Right w w' := by
  have hstart : G.GatheredTo w 0 w := ⟨nofun, fun _ _ _ _ _ => rfl⟩
  obtain ⟨w', hrun, hw'⟩ := h.runChunks_eq hplace h.counted.tiles (le_rfl) (fun _ hc => hc) hstart
  refine ⟨w', ?_, hw'.right⟩
  unfold run
  rw [if_neg h.counted.max_pos.ne', allIntChunks_eq h.count h.counted]
  exact hrun

end SyclAllgather

end OneCcl
