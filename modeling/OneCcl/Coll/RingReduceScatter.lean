import OneCcl.Coll.CopyIn
import OneCcl.Reduction.Parts
import OneCcl.Reduction.Ring
import OneCcl.Sched.Groups
import OneCcl.Comm.Comm

/-!
# Ring reduce_scatter, the building block

`ccl_coll_build_reduce_scatter_block`. The data is cut into one block for each rank. In step `idx` a rank sends
the block it finished in the step before to its right neighbour, receives the block left of it from its left
neighbour and reduces its own data into it; the first block it sends is its own data. A block is cut into chunks,
and with more than one chunk the reduction of a chunk is delayed until the next chunk is on its way, so that
computation and communication overlap: the last reduction of all is made behind the loop.

Steps and chunks are one sequence of times `t = idx * chunk_count + chunk_idx`. Rank `r` walks through the chunks
in an order of its own, the **places** `u` of `ringBlock`: at time `t` it sends the chunk at place `t` and
receives the chunk at place `t + chunk_count`, which its left neighbour has at place `t`.
-/

namespace OneCcl

open Async List Reduction Parts CclBuffer Sched

/-! ## The builder -/

/-- The settings the builder reads. -/
structure RsEnv where
  rsChunkCount : Nat
  rsMinChunkSize : Nat

/-- The loop that drops chunks while they are too small. -/
def shrinkChunkCount (bytes commSize minChunkSize : Nat) : Nat → Nat
  | 0 => 0
  | c + 1 =>
    if 1 < c + 1 ∧ bytes / (commSize * (c + 1)) < minChunkSize then shrinkChunkCount bytes commSize minChunkSize c
    else c + 1

/-- How many chunks a block is cut into; the count is compared with the size as an `int`. -/
def rsChunkCount (env : RsEnv) (count dtypeSize commSize : Nat) : Nat :=
  let bytes := count * dtypeSize
  let chunkCount :=
    if env.rsMinChunkSize ≤ bytes ∧ env.rsChunkCount ≤ count ∧ (commSize : Int) ≤ Int.bmod count (2 ^ 32) then
      env.rsChunkCount
    else 1
  let chunkCount := shrinkChunkCount bytes commSize env.rsMinChunkSize chunkCount
  if chunkCount = 0 then 1 else chunkCount

/-- The buffers of a step. -/
structure RsBufs where
  sbuf : CclBuffer
  rbuf : CclBuffer
  reduceInBuf : CclBuffer
  reduceInoutBuf : CclBuffer
  recvReduceLocalBuf : CclBuffer
  recvReduceCommBuf : CclBuffer
  recvReduceResultType : RecvReduceResult

/-- In place a rank receives into the temporary buffer and keeps its data in `recv_buf`; else it receives into
`recv_buf` and has its data in `send_buf`. -/
def rsBufs (sendBuf recvBuf tmpBuf : CclBuffer) (idx : Nat) : RsBufs :=
  if sendBuf = recvBuf then ⟨recvBuf, tmpBuf, tmpBuf, recvBuf, recvBuf, tmpBuf, .localBuf⟩
  else ⟨if idx = 0 then sendBuf else recvBuf, recvBuf, sendBuf, recvBuf, sendBuf, recvBuf, .commBuf⟩

/-- What the loops carry from chunk to chunk. -/
structure RsState where
  blockIdx : Nat
  recvChunkSize : Nat
  recvChunkOffset : Nat
  sched : Sched

/-- A chunk that is received by itself: behind its receive the chunk before it is reduced, and the last chunk of
all is reduced as well. -/
def rsDelayed (b : RsBufs) (commSize chunkCount src idx chunkIdx recvChunkOffset recvChunkSize prevRecvChunkOffset
    prevRecvChunkSize : Nat) (sched : Sched) : Sched :=
  let sched := sched.create (.recv (b.rbuf + recvChunkOffset) recvChunkSize src)
  let sched :=
    if 0 < idx + chunkIdx then
      (sched.create (.reduceLocal (b.reduceInBuf + prevRecvChunkOffset) prevRecvChunkSize
        (b.reduceInoutBuf + prevRecvChunkOffset))).addBarrier
    else sched
  if idx = commSize - 2 ∧ chunkIdx = chunkCount - 1 then
    sched.addBarrier.create
      (.reduceLocal (b.reduceInBuf + recvChunkOffset) recvChunkSize (b.reduceInoutBuf + recvChunkOffset))
  else sched

def rsChunk (b : RsBufs) (commSize chunkCount src dst idx sendBlockSize sendBlockOffset recvBlockSize
    recvBlockOffset : Nat) (st : RsState) (chunkIdx : Nat) : Option RsState :=
  let sendChunkSize := size sendBlockSize chunkCount chunkIdx
  let recvChunkSize := size recvBlockSize chunkCount chunkIdx
  let sendChunkOffset := sendBlockOffset + offset sendBlockSize chunkCount chunkIdx
  let recvChunkOffset := recvBlockOffset + offset recvBlockSize chunkCount chunkIdx
  let sched := st.sched.create (.send (b.sbuf + sendChunkOffset) sendChunkSize dst)
  let received :=
    if 1 < chunkCount then
      some (rsDelayed b commSize chunkCount src idx chunkIdx recvChunkOffset recvChunkSize st.recvChunkOffset
        st.recvChunkSize sched)
    else
      sched.createRecvReduce (b.recvReduceLocalBuf + recvChunkOffset) recvChunkSize src
        (b.recvReduceCommBuf + recvChunkOffset) b.recvReduceResultType
  received.map fun sched =>
    { st with recvChunkSize := recvChunkSize, recvChunkOffset := recvChunkOffset, sched := sched.addBarrier }

/-- The body of the outer loop: one block, then one block to the left. -/
def rsBlock (sendBuf recvBuf tmpBuf : CclBuffer) (count commSize chunkCount src dst : Nat) (st : RsState)
    (idx : Nat) : Option RsState :=
  let sendBlockIdx := st.blockIdx
  let recvBlockIdx := (commSize + st.blockIdx - 1) % commSize
  ((range chunkCount).foldlM
    (rsChunk (rsBufs sendBuf recvBuf tmpBuf idx) commSize chunkCount src dst idx
      (size count commSize sendBlockIdx) (offset count commSize sendBlockIdx)
      (size count commSize recvBlockIdx) (offset count commSize recvBlockIdx)) st).map fun st =>
    { st with blockIdx := (commSize + st.blockIdx - 1) % commSize }

/-- `ccl_coll_build_reduce_scatter_block`. -/
def cclCollBuildReduceScatterBlock (env : RsEnv) (sendBuf recvBuf : CclBuffer) (count dtypeSize : Nat)
    (comm : CclComm) (rank : Nat) (sched : Sched) : Option Sched :=
  if (sendBuf.toBool && recvBuf.toBool) = false then none
  else
    let src := (comm.size + rank - 1) % comm.size
    let dst := (comm.size + rank + 1) % comm.size
    let chunkCount := rsChunkCount env count dtypeSize comm.size
    if comm.size = 1 then some (copyIn sendBuf recvBuf count sched)
    else
      let tmp := if sendBuf = recvBuf then sched.allocBuffer count else some (empty, sched)
      tmp.bind fun (tmpBuf, sched) =>
        ((range (comm.size - 1)).foldlM
          (rsBlock sendBuf recvBuf tmpBuf count comm.size chunkCount src dst)
          ⟨(rank + comm.size - 1) % comm.size, 0, 0, sched⟩).map (·.sched)

theorem rsChunkCount_pos (env : RsEnv) (count dtypeSize commSize : Nat) : 0 < rsChunkCount env count dtypeSize commSize := by
  unfold rsChunkCount
  dsimp only
  generalize shrinkChunkCount _ _ _ _ = c
  split <;> omega

/-! ## Places -/

/-- The block rank `r` works on in step `idx`, counting to the left from the one before its own. -/
def ringBlock (n r idx : Nat) : Nat := if idx < r then r - 1 - idx else r + n - 1 - idx

section

variable {n r : Nat}

variable {idx : Nat}

theorem ringBlock_lt (hr : r < n) (h : idx < n) : ringBlock n r idx < n := by
  unfold ringBlock
  split <;> omega

theorem ringBlock_inj {idx' : Nat} (h : idx < n) (h' : idx' < n)
    (he : ringBlock n r idx = ringBlock n r idx') : idx = idx' := by
  unfold ringBlock at he
  split at he <;> split at he <;> omega

theorem ringBlock_zero (hr : r < n) : (r + n - 1) % n = ringBlock n r 0 := by
  rw [Nat.add_comm r n, mod_ringPrev hr]
  unfold ringPrev ringBlock
  split <;> split <;> omega

theorem ringBlock_succ (hr : r < n) (h : idx + 1 < n) : (n + ringBlock n r idx - 1) % n = ringBlock n r (idx + 1) := by
  rw [mod_ringPrev (ringBlock_lt hr (by omega))]
  unfold ringPrev ringBlock
  split <;> split <;> split <;> omega

theorem ringBlock_ringPrev (hr : r < n) (h : idx + 1 < n) : ringBlock n (ringPrev n r) idx = ringBlock n r (idx + 1) := by
  unfold ringPrev ringBlock
  split <;> split <;> split <;> omega

theorem ringBlock_last (hr : r < n) : ringBlock n r (n - 1) = r := by
  unfold ringBlock
  split <;> omega

end

/-! ### Times -/

section

variable {n cc idx c : Nat}

theorem time_div (hc : c < cc) : (idx * cc + c) / cc = idx := by
  rw [Nat.mul_comm, Nat.mul_add_div (Nat.zero_lt_of_lt hc), Nat.div_eq_of_lt hc, Nat.add_zero]

theorem time_lt (hidx : idx + 1 < n) (hc : c < cc) : idx * cc + c < (n - 1) * cc := by
  have h : (idx + 1) * cc ≤ (n - 1) * cc := Nat.mul_le_mul_right _ (by omega)
  rw [Nat.succ_mul] at h
  omega

theorem time_last (hidx : idx + 1 < n) (hc : c < cc) : (idx = n - 2 ∧ c = cc - 1) ↔ idx * cc + (c + 1) = (n - 1) * cc := by
  have hn : (n - 1) * cc = (n - 2) * cc + cc := by rw [show n - 1 = n - 2 + 1 by omega, Nat.succ_mul]
  rw [hn]
  constructor
  · rintro ⟨rfl, rfl⟩
    omega
  · intro he
    have h1 : ¬ idx < n - 2 := fun hlt => by
      have h2 : (idx + 1) * cc ≤ (n - 2) * cc := Nat.mul_le_mul_right _ hlt
      rw [Nat.succ_mul] at h2
      omega
    obtain rfl : idx = n - 2 := by omega
    exact ⟨rfl, by omega⟩

end

/-- What the ranks of a reduce_scatter pass, and the number of chunks of a block. -/
structure RingCall where
  sendBuf : Nat → CclBuffer
  recvBuf : CclBuffer
  count : Nat
  n : Nat
  cc : Nat
  cc_pos : 0 < cc
  bufs : ∀ r < n, CollBufs (sendBuf r) recvBuf count

namespace RingCall

section

variable (A : RingCall)

/-- How many times there are. -/
abbrev times : Nat := (A.n - 1) * A.cc

def blockOffset (r idx : Nat) : Nat := offset A.count A.n (ringBlock A.n r idx)

def blockSize (r idx : Nat) : Nat := size A.count A.n (ringBlock A.n r idx)

def placeOffset (r u : Nat) : Nat := A.blockOffset r (u / A.cc) + offset (A.blockSize r (u / A.cc)) A.cc (u % A.cc)

def placeSize (r u : Nat) : Nat := size (A.blockSize r (u / A.cc)) A.cc (u % A.cc)

end

section

variable {A : RingCall} {r u t idx c : Nat}

theorem mod_cc_lt (A : RingCall) (u : Nat) : u % A.cc < A.cc := Nat.mod_lt u A.cc_pos

theorem div_lt_of_place {n cc : Nat} (hu : u < n * cc) : u / cc < n := Nat.div_lt_of_lt_mul (Nat.mul_comm n cc ▸ hu)

theorem place_le (hr : r < A.n) (hu : u < A.n * A.cc) : A.placeOffset r u + A.placeSize r u ≤ A.count := by
  have h1 := offset_add_size_le A.count (ringBlock_lt hr (div_lt_of_place hu))
  have h2 := offset_add_size_le (A.blockSize r (u / A.cc)) (A.mod_cc_lt u)
  unfold placeOffset placeSize blockOffset blockSize at *
  omega

/-- **Different places have different elements.** -/
theorem place_apart (hr : r < A.n) {u' : Nat} (hu : u < A.n * A.cc) (hu' : u' < A.n * A.cc) (hne : u ≠ u') :
    A.placeOffset r u + A.placeSize r u ≤ A.placeOffset r u' ∨
      A.placeOffset r u' + A.placeSize r u' ≤ A.placeOffset r u := by
  -- a chunk is inside its block, and blocks are in order
  have key : ∀ {u u'}, u < A.n * A.cc → u' < A.n * A.cc → ringBlock A.n r (u / A.cc) < ringBlock A.n r (u' / A.cc) →
      A.placeOffset r u + A.placeSize r u ≤ A.placeOffset r u' := by
    intro u u' hu hu' hlt
    have h1 := ordered A.count hlt (ringBlock_lt hr (div_lt_of_place hu'))
    have h2 := offset_add_size_le (A.blockSize r (u / A.cc)) (A.mod_cc_lt u)
    unfold placeOffset placeSize blockOffset blockSize at *
    omega
  rcases lt_trichotomy (ringBlock A.n r (u / A.cc)) (ringBlock A.n r (u' / A.cc)) with h | h | h
  · exact .inl (key hu hu' h)
  · have hdiv := ringBlock_inj (div_lt_of_place hu) (div_lt_of_place hu') h
    have hmod : u % A.cc ≠ u' % A.cc := fun hmod =>
      hne (by rw [← Nat.div_add_mod u A.cc, hdiv, hmod, Nat.div_add_mod])
    unfold placeOffset placeSize
    rw [← hdiv]
    rcases hmod.lt_or_gt with hlt | hgt
    · have := ordered (A.blockSize r (u / A.cc)) hlt (A.mod_cc_lt u')
      omega
    · have := ordered (A.blockSize r (u / A.cc)) hgt (A.mod_cc_lt u)
      omega
  · exact .inr (key hu' hu h)

variable (A) in
theorem place_time (r idx : Nat) (hc : c < A.cc) :
    A.placeOffset r (idx * A.cc + c) = A.blockOffset r idx + offset (A.blockSize r idx) A.cc c ∧
      A.placeSize r (idx * A.cc + c) = size (A.blockSize r idx) A.cc c := by
  unfold placeOffset placeSize
  rw [time_div hc, Nat.mul_add_mod_of_lt hc]
  exact ⟨rfl, rfl⟩

theorem place_ringPrev (hr : r < A.n) (ht : t < A.times) :
    A.placeOffset (ringPrev A.n r) t = A.placeOffset r (t + A.cc) ∧
      A.placeSize (ringPrev A.n r) t = A.placeSize r (t + A.cc) := by
  have hidx : t / A.cc < A.n - 1 := div_lt_of_place ht
  unfold placeOffset placeSize blockOffset blockSize
  rw [Nat.add_div_right t A.cc_pos, Nat.add_mod_right, ringBlock_ringPrev hr (by omega)]
  exact ⟨rfl, rfl⟩

end

/-! ## The rounds -/

section

variable (A : RingCall)

/-- The temporary buffer of a rank in place. -/
def tmpBuf (r : Nat) : CclBuffer := if A.sendBuf r = A.recvBuf then ⟨.alloc 0 0, 0⟩ else .empty

/-- The buffers of rank `r` in step `idx`. -/
def stepBufs (r idx : Nat) : RsBufs := rsBufs (A.sendBuf r) A.recvBuf (A.tmpBuf r) idx

/-- The exchange at time `t`, with a plain receive or with one that reduces. -/
def swap (plain : Bool) (t r : Nat) : Option Swap :=
  if r < A.n then
    let b := A.stepBufs r (t / A.cc)
    let off := A.placeOffset r (t + A.cc)
    let size := A.placeSize r (t + A.cc)
    some ⟨if plain then .recv (b.rbuf + off) size (ringPrev A.n r)
      else .recvReduce (b.recvReduceLocalBuf + off) size (ringPrev A.n r) (b.recvReduceCommBuf + off)
        b.recvReduceResultType,
      b.sbuf + A.placeOffset r t, ringNext A.n r, A.placeSize r t, ringPrev A.n r, size⟩
  else none

/-- The reduction of what was received at time `t`. -/
def reduce (t r : Nat) : List EntryKind :=
  if r < A.n then
    let b := A.stepBufs r (t / A.cc)
    let off := A.placeOffset r (t + A.cc)
    [.reduceLocal (b.reduceInBuf + off) (A.placeSize r (t + A.cc)) (b.reduceInoutBuf + off)]
  else []

/-- What runs together at time `t`: the exchange, and with it the reduction of the chunk before when reductions
are delayed. -/
def group (t : Nat) : List SchedRound :=
  if 1 < A.cc then
    if t = 0 then [.ofKinds true (swapKinds true (A.swap true t))]
    else [.ofKinds false (swapKinds true (A.swap true t)), .ofKinds true (A.reduce (t - 1))]
  else [.ofKinds true (swapKinds true (A.swap false t))]

/-- The last reduction, when reductions are delayed. -/
def tail : List SchedRound := if 1 < A.cc then [.ofKinds true (A.reduce (A.times - 1))] else []

def groups : List (List SchedRound) := (range A.times).map A.group ++ [A.tail]

/-! ### The builder makes the rounds -/

/-- The state of the loops at time `t`. -/
structure After (before : List SchedEntry) (r t : Nat) (st : RsState) : Prop where
  entries : st.sched.entries =
    before ++ ((range t).flatMap A.group).flatMap (· r) ++ if t = A.times then A.tail.flatMap (· r) else []
  prev : 0 < t → st.recvChunkOffset = A.placeOffset r (t - 1 + A.cc) ∧
    st.recvChunkSize = A.placeSize r (t - 1 + A.cc)

/-- The loop over the chunks of step `idx`, as rank `r` runs it. -/
abbrev chunkLoop (r idx : Nat) : RsState → Nat → Option RsState :=
  rsChunk (A.stepBufs r idx) A.n A.cc (ringPrev A.n r) (ringNext A.n r) idx (A.blockSize r idx) (A.blockOffset r idx)
    (A.blockSize r (idx + 1)) (A.blockOffset r (idx + 1))

/-- The loop over the blocks, as rank `r` runs it. -/
abbrev blockLoop (r : Nat) : RsState → Nat → Option RsState :=
  rsBlock (A.sendBuf r) A.recvBuf (A.tmpBuf r) A.count A.n A.cc (ringPrev A.n r) (ringNext A.n r)

end

variable {A : RingCall} {r idx c : Nat}

theorem rsDelayed_entries (b : RsBufs) {n cc : Nat} (hcc : 1 < cc) (src off size poff psize : Nat) (sched : Sched) :
    (rsDelayed b n cc src idx c off size poff psize sched).addBarrier.entries =
      sched.entries ++
        (if 0 < idx + c then
          [⟨.recv (b.rbuf + off) size src, false⟩,
            ⟨.reduceLocal (b.reduceInBuf + poff) psize (b.reduceInoutBuf + poff), true⟩]
        else [⟨.recv (b.rbuf + off) size src, true⟩]) ++
        if idx = n - 2 ∧ c = cc - 1 then
          [⟨.reduceLocal (b.reduceInBuf + off) size (b.reduceInoutBuf + off), true⟩]
        else [] := by
  unfold rsDelayed
  dsimp only
  by_cases h0 : 0 < idx + c
  · rw [if_pos h0, if_pos h0]
    have hbar : ∀ (s : Sched) (k : EntryKind), (s.create k).addBarrier.addBarrier.entries = s.entries ++ [⟨k, true⟩] :=
      fun s k => addBarrier_of_entries (addBarrier_create_entries s k)
    split
    · rw [addBarrier_create_entries, hbar, create_entries, append_assoc sched.entries]
      rfl
    · rw [hbar, create_entries, append_assoc, append_nil]
      rfl
  · -- with several chunks the first is not the last
    rw [if_neg h0, if_neg h0, if_neg (by omega), if_neg (by omega), addBarrier_create_entries,
      append_nil]

theorem createRecvReduce_stepBufs (hr : r < A.n) (sched : Sched) (idx off size src : Nat) :
    let b := A.stepBufs r idx
    sched.createRecvReduce (b.recvReduceLocalBuf + off) size src (b.recvReduceCommBuf + off) b.recvReduceResultType =
      some (sched.create (.recvReduce (b.recvReduceLocalBuf + off) size src (b.recvReduceCommBuf + off)
        b.recvReduceResultType)) := by
  obtain ⟨i, hi⟩ := (A.bufs r hr).send_user
  obtain ⟨j, hj⟩ := (A.bufs r hr).recv_user
  unfold stepBufs rsBufs tmpBuf
  by_cases h : A.sendBuf r = A.recvBuf
  · simp only [if_pos h]
    refine createRecvReduce_given sched size src _ ?_ nofun fun _ he => ?_
    · rw [add_src, hj]
      exact nofun
    · have := congrArg CclBuffer.src he
      rw [add_src, add_src, hj] at this
      cases this
  · simp only [if_neg h]
    refine createRecvReduce_given sched size src _ ?_ ?_ fun _ he => h (add_right_cancel he).symm
    · rw [add_src, hi]
      exact nofun
    · rw [add_src, hj]
      exact nofun

variable (hr : r < A.n)

include hr

theorem group_entries (t : Nat) : (A.group t).flatMap (· r) =
      let b := A.stepBufs r (t / A.cc)
      let off := A.placeOffset r (t + A.cc)
      let size := A.placeSize r (t + A.cc)
      ⟨.send (b.sbuf + A.placeOffset r t) (A.placeSize r t) (ringNext A.n r), false⟩ ::
        if 1 < A.cc then
          if t = 0 then [⟨.recv (b.rbuf + off) size (ringPrev A.n r), true⟩]
          else [⟨.recv (b.rbuf + off) size (ringPrev A.n r), false⟩] ++ entriesOf true (A.reduce (t - 1) r)
        else [⟨.recvReduce (b.recvReduceLocalBuf + off) size (ringPrev A.n r) (b.recvReduceCommBuf + off)
          b.recvReduceResultType, true⟩] := by
  unfold group
  by_cases hcc : 1 < A.cc
  · by_cases ht : t = 0
    · simp only [if_pos hcc, if_pos ht, flatMap_cons, flatMap_nil, SchedRound.ofKinds, swapKinds,
        swap, if_pos hr, if_true, Option.elim_some, Swap.kinds, entriesOf_cons_cons, entriesOf_singleton,
        append_nil]
    · simp only [if_pos hcc, if_neg ht, flatMap_cons, flatMap_nil, SchedRound.ofKinds, swapKinds,
        swap, if_pos hr, if_true, Option.elim_some, Swap.kinds, entriesOf_cons_cons, entriesOf_singleton,
        append_nil, cons_append, nil_append]
  · simp only [if_neg hcc, flatMap_cons, flatMap_nil, SchedRound.ofKinds, swapKinds, swap, if_pos hr,
      if_true, Bool.false_eq_true, if_false, Option.elim_some, Swap.kinds, entriesOf_cons_cons,
      entriesOf_singleton, append_nil]

/-- What a reduction works on does not depend on the step. -/
theorem reduce_eq (idx t : Nat) : A.reduce t r =
      [.reduceLocal ((A.stepBufs r idx).reduceInBuf + A.placeOffset r (t + A.cc)) (A.placeSize r (t + A.cc))
        ((A.stepBufs r idx).reduceInoutBuf + A.placeOffset r (t + A.cc))] := by
  unfold reduce stepBufs rsBufs
  rw [if_pos hr]
  split <;> rfl

variable {before : List SchedEntry} {st : RsState}

/-- **One chunk** of the loops is the group at its time. -/
theorem After.chunk (hidx : idx + 1 < A.n) (hc : c < A.cc) (h : A.After before r (idx * A.cc + c) st) :
    ∃ st', A.chunkLoop r idx st c = some st' ∧ A.After before r (idx * A.cc + (c + 1)) st' ∧
      st'.blockIdx = st.blockIdx := by
  obtain ⟨hoff, hsize⟩ := A.place_time r idx hc
  obtain ⟨hoff', hsize'⟩ := A.place_time r (idx + 1) hc
  rw [show (idx + 1) * A.cc + c = idx * A.cc + c + A.cc by rw [Nat.succ_mul]; omega] at hoff' hsize'
  have hold := h.entries
  rw [if_neg ((time_lt hidx hc).ne), append_nil] at hold
  have hnext : ((range (idx * A.cc + (c + 1))).flatMap A.group).flatMap (· r) =
      ((range (idx * A.cc + c)).flatMap A.group).flatMap (· r) ++ (A.group (idx * A.cc + c)).flatMap (· r) := by
    rw [← Nat.add_assoc, range_succ, flatMap_append, flatMap_append, flatMap_singleton]
  rw [group_entries hr, time_div hc] at hnext
  dsimp only at hnext
  unfold chunkLoop rsChunk
  dsimp only
  rw [← hoff, ← hsize, ← hoff', ← hsize']
  by_cases h1 : 1 < A.cc
  · have hmid : ∀ k k', (if 0 < idx + c then [k, ⟨.reduceLocal
          ((A.stepBufs r idx).reduceInBuf + st.recvChunkOffset) st.recvChunkSize
          ((A.stepBufs r idx).reduceInoutBuf + st.recvChunkOffset), true⟩] else [k']) =
        if idx * A.cc + c = 0 then [k'] else [k] ++ entriesOf true (A.reduce (idx * A.cc + c - 1) r) := by
      intro k k'
      by_cases h0 : 0 < idx + c
      · have ht : 0 < idx * A.cc + c := by
          rcases Nat.eq_zero_or_pos idx with rfl | hpos
          · omega
          · exact (Nat.mul_pos hpos (Nat.zero_lt_of_lt hc)).trans_le (Nat.le_add_right ..)
        obtain ⟨hpo, hps⟩ := h.prev ht
        rw [if_pos h0, if_neg ht.ne', reduce_eq hr idx, hpo, hps]
        rfl
      · obtain ⟨rfl, rfl⟩ : idx = 0 ∧ c = 0 := by omega
        rw [if_neg h0, if_pos (by omega)]
    have htail : (if idx = A.n - 2 ∧ c = A.cc - 1 then [(⟨.reduceLocal
          ((A.stepBufs r idx).reduceInBuf + A.placeOffset r (idx * A.cc + c + A.cc))
          (A.placeSize r (idx * A.cc + c + A.cc))
          ((A.stepBufs r idx).reduceInoutBuf + A.placeOffset r (idx * A.cc + c + A.cc)), true⟩ : SchedEntry)] else []) =
        if idx * A.cc + (c + 1) = A.times then A.tail.flatMap (· r) else [] := by
      refine ite_congr (propext (time_last hidx hc)) (fun he => ?_) fun _ => rfl
      rw [tail, if_pos h1, flatMap_singleton, SchedRound.ofKinds, reduce_eq hr idx, ← he]
      rfl
    rw [if_pos h1, Option.map_some]
    refine ⟨_, rfl, ⟨?_, fun _ => ⟨rfl, rfl⟩⟩, rfl⟩
    show (rsDelayed _ _ _ _ _ _ _ _ _ _ _).addBarrier.entries = _
    rw [rsDelayed_entries _ h1, hmid, htail, create_entries, hold, hnext, if_pos h1]
    simp only [append_assoc, cons_append, nil_append]
  · have htail : A.tail = [] := if_neg h1
    rw [if_neg h1, createRecvReduce_stepBufs hr, Option.map_some]
    refine ⟨_, rfl, ⟨?_, fun _ => ⟨rfl, rfl⟩⟩, rfl⟩
    show (create _ _).addBarrier.entries = _
    rw [addBarrier_create_entries, create_entries, hold, hnext, if_neg h1, htail, flatMap_nil, ite_self]
    simp only [append_assoc, cons_append, nil_append, append_nil]

/-- **One block** of the loops. -/
theorem After.block (hidx : idx + 1 < A.n) (h : A.After before r (idx * A.cc) st)
    (hblock : st.blockIdx = ringBlock A.n r idx) :
    ∃ st', A.blockLoop r st idx = some st' ∧ A.After before r ((idx + 1) * A.cc) st' ∧
      st'.blockIdx = ringBlock A.n r (idx + 1) := by
  have hleft : (A.n + ringBlock A.n r idx - 1) % A.n = ringBlock A.n r (idx + 1) := ringBlock_succ hr hidx
  unfold blockLoop rsBlock
  dsimp only
  rw [hblock, hleft]
  obtain ⟨st', hrun, hafter, hblock'⟩ := foldlM_range
    (I := fun c st' => A.After before r (idx * A.cc + c) st' ∧ st'.blockIdx = ringBlock A.n r idx)
    (f := A.chunkLoop r idx) (m := A.cc)
    ⟨h, hblock⟩ fun c hc st' hst' => by
      obtain ⟨st'', h1, h2, h3⟩ := hst'.1.chunk hr hidx hc
      exact ⟨st'', h1, h2, h3.trans hst'.2⟩
  refine ⟨_, congrArg (Option.map _) hrun, ?_, ?_⟩
  · rw [Nat.succ_mul]
    exact ⟨hafter.entries, hafter.prev⟩
  · show (A.n + st'.blockIdx - 1) % A.n = _
    rw [hblock', hleft]

/-- **The loops make the groups.** -/
theorem blockLoop_entries (hn : 2 ≤ A.n) (sched : Sched) :
    ∃ st', (range (A.n - 1)).foldlM (A.blockLoop r) ⟨ringBlock A.n r 0, 0, 0, sched⟩ = some st' ∧
      st'.sched.entries = sched.entries ++ A.groups.flatten.flatMap (· r) := by
  have hstart : A.After sched.entries r (0 * A.cc) ⟨ringBlock A.n r 0, 0, 0, sched⟩ := by
    refine ⟨?_, fun h => absurd h (by omega)⟩
    have hpos : 0 < A.times := Nat.mul_pos (by omega) A.cc_pos
    rw [Nat.zero_mul, if_neg hpos.ne, range_zero, flatMap_nil, flatMap_nil, append_nil,
      append_nil]
  obtain ⟨st', hrun, hafter, -⟩ := foldlM_range
    (I := fun idx st' => A.After sched.entries r (idx * A.cc) st' ∧ st'.blockIdx = ringBlock A.n r idx)
    (m := A.n - 1) ⟨hstart, rfl⟩ fun idx hidx st' hst' =>
      hst'.1.block hr (show idx + 1 < A.n by omega) hst'.2
  refine ⟨st', hrun, ?_⟩
  rw [hafter.entries, if_pos rfl, append_assoc, groups, flatten_append, flatten_singleton,
    flatMap_append, flatMap_def (l := range _)]

end RingCall

/-- The call of all ranks of a communicator. -/
def ringCall (env : RsEnv) {sendBuf : Nat → CclBuffer} {recvBuf : CclBuffer} {count : Nat} (dtypeSize : Nat)
    (comm : CclComm) (hbufs : ∀ r < comm.size, CollBufs (sendBuf r) recvBuf count) : RingCall where
  sendBuf := sendBuf
  recvBuf := recvBuf
  count := count
  n := comm.size
  cc := rsChunkCount env count dtypeSize comm.size
  cc_pos := rsChunkCount_pos env count dtypeSize comm.size
  bufs := hbufs

/-- **The schedule of the block**: it is built unless there is nothing to allocate, and is the groups. -/
theorem cclCollBuildReduceScatterBlock_entries (env : RsEnv) {sendBuf : Nat → CclBuffer} {recvBuf : CclBuffer}
    {count : Nat} (dtypeSize : Nat) (comm : CclComm) (hbufs : ∀ r < comm.size, CollBufs (sendBuf r) recvBuf count)
    (hn : 2 ≤ comm.size) {r : Nat} (hr : r < comm.size) (hpos : sendBuf r = recvBuf → 0 < count) :
    ∃ s, cclCollBuildReduceScatterBlock env (sendBuf r) recvBuf count dtypeSize comm r (.new 0) = some s ∧
      s.entries = [] ++ (ringCall env dtypeSize comm hbufs).groups.flatten.flatMap (· r) := by
  -- whether or not a buffer is allocated, the loops start from no entries
  obtain ⟨sched', htmp, hentries⟩ : ∃ sched' : Sched,
      (if sendBuf r = recvBuf then Sched.allocBuffer (.new 0) count else some (empty, .new 0)) =
        some ((ringCall env dtypeSize comm hbufs).tmpBuf r, sched') ∧ sched'.entries = [] := by
    show ∃ _, _ = some ((if sendBuf r = recvBuf then _ else _), _) ∧ _
    by_cases h : sendBuf r = recvBuf
    · rw [if_pos h, if_pos h, allocBuffer_of_pos _ (hpos h)]
      exact ⟨_, rfl, rfl⟩
    · rw [if_neg h, if_neg h]
      exact ⟨.new 0, rfl, rfl⟩
  obtain ⟨st, hrun, hst⟩ := RingCall.blockLoop_entries (A := ringCall env dtypeSize comm hbufs) hr hn sched'
  refine ⟨st.sched, ?_, by rw [hst, hentries]⟩
  unfold cclCollBuildReduceScatterBlock
  rw [(hbufs r hr).toBool, if_neg Bool.noConfusion, if_neg (by omega), htmp, mod_ringPrev hr, mod_ringNext hr,
    ringBlock_zero hr]
  exact congrArg (Option.map _) hrun

end OneCcl
