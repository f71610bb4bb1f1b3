import Mathlib.Algebra.Order.Ring.Int
import Mathlib.Data.List.Basic

/-!
# Collective calls

The parameters of a collective as the user's call leaves them: one `create_<coll>_param` for every collective, the checks
of `ccl_coll_param::validate` and of `ccl_coll_validate_user_input`. Pointers are addresses, and 0 is the null pointer.
-/

namespace OneCcl

open List

/-- Collectives: `ccl_coll_type`. -/
inductive CollType where
  | allgather
  | allgatherv
  | allreduce
  | alltoall
  | alltoallv
  | barrier
  | bcast
  | broadcast
  | recv
  | reduce
  | reduceScatter
  | send
  deriving DecidableEq, Repr

def CollType.toNat : CollType → Nat
  | .allgather => 0
  | .allgatherv => 1
  | .allreduce => 2
  | .alltoall => 3
  | .alltoallv => 4
  | .barrier => 5
  | .bcast => 6
  | .broadcast => 7
  | .recv => 8
  | .reduce => 9
  | .reduceScatter => 10
  | .send => 11

theorem CollType.toNat_injective : Function.Injective CollType.toNat := by
  intro a b h
  cases a <;> cases b <;> first | rfl | cases h

/-- Reductions by their number, as far as the checks name one: `ccl::reduction::avg`, and the first number behind the
predefined ones. -/
def reductionAvg : Nat := 4

@[inherit_doc reductionAvg]
def reductionPredefinedOps : Nat := 6

/-- What `set` and `create` read of the process: its transport, the registered datatypes, and the communicators by
address. -/
structure Process where
  ofi : Bool
  isPredefined : Nat → Bool
  dtypeSize : Nat → Nat
  size : Nat → Nat
  rank : Nat → Nat
  rank_lt : ∀ comm, rank comm < size comm

/-- Parameters of a collective: `ccl_coll_param`. -/
structure CollParam where
  ctype : CollType
  sendBufs : List Nat
  recvBufs : List Nat
  sendCounts : List Nat
  recvCounts : List Nat
  sendCount : Nat := 0
  count : Nat := 0
  dtype : Nat
  reduction : Nat := 0
  root : Int := -1
  peerRank : Int := -1
  groupId : Int := -1
  comm : Nat
  deriving DecidableEq, Repr

/-- Attributes of a collective: `ccl_coll_attr`. -/
structure CollAttr where
  reductionFn : Nat := 0
  isVectorBuf : Bool := false
  matchId : List Char := []
  deriving DecidableEq, Repr

/-- How many buffers a vector collective points to: one or, in vector mode, one per rank. -/
abbrev Process.bufCount (proc : Process) (attr : CollAttr) (comm : Nat) : Nat :=
  if attr.isVectorBuf then proc.size comm else 1

section

variable (proc : Process) (attr : CollAttr) (sendBuf recvBuf count dtype comm : Nat)

def createAllgatherParam : CollParam :=
  { ctype := .allgather, sendBufs := [sendBuf], sendCounts := [count], recvBufs := [recvBuf], recvCounts := [count],
    dtype, comm }

/-- `recv_buf` points to one buffer or, in vector mode, to an array of them. -/
def createAllgathervParam (recvBuf : List Nat) (recvCounts : List Nat) : CollParam :=
  { ctype := .allgatherv, sendBufs := [sendBuf], sendCounts := [count],
    recvBufs := if attr.isVectorBuf then recvBuf.take (proc.size comm) else recvBuf.take 1,
    recvCounts := recvCounts.take (proc.size comm), dtype, comm }

def createAllreduceParam (reduction : Nat) : CollParam :=
  { ctype := .allreduce, count, sendBufs := [sendBuf], sendCounts := [count], recvBufs := [recvBuf], recvCounts := [count],
    reduction, dtype, comm }

def createAlltoallParam : CollParam :=
  { ctype := .alltoall, sendBufs := [sendBuf], sendCounts := [count], recvBufs := [recvBuf], recvCounts := [count],
    dtype, comm }

def createAlltoallvParam (sendBuf sendCounts recvBuf recvCounts : List Nat) : CollParam :=
  { ctype := .alltoallv,
    sendBufs := if attr.isVectorBuf then sendBuf.take (proc.size comm) else sendBuf.take 1,
    sendCounts := sendCounts.take (proc.size comm),
    recvBufs := if attr.isVectorBuf then recvBuf.take (proc.size comm) else recvBuf.take 1,
    recvCounts := recvCounts.take (proc.size comm), dtype, comm }

/-- A barrier is of `int8`, the datatype with number 0. -/
def createBarrierParam : CollParam :=
  { ctype := .barrier, sendBufs := [], sendCounts := [0], recvBufs := [], recvCounts := [0], dtype := 0, comm }

def createBcastParam (root : Int) : CollParam :=
  { ctype := .bcast, sendBufs := [recvBuf], sendCounts := [count], recvBufs := [recvBuf], recvCounts := [count], root,
    dtype, comm }

def createBroadcastParam (root : Int) : CollParam :=
  { ctype := .broadcast, sendBufs := [sendBuf], sendCounts := [count], recvBufs := [recvBuf], recvCounts := [count], root,
    dtype, comm }

def createReduceParam (reduction : Nat) (root : Int) : CollParam :=
  { ctype := .reduce, sendBufs := [sendBuf], sendCounts := [count], recvBufs := [recvBuf], recvCounts := [count],
    reduction, root, dtype, comm }

def createReduceScatterParam (reduction : Nat) : CollParam :=
  { ctype := .reduceScatter, sendBufs := [sendBuf], sendCounts := [proc.size comm * count % 2 ^ 64], recvBufs := [recvBuf],
    recvCounts := [count], reduction, dtype, comm }

def createRecvParam (peerRank : Int) : CollParam :=
  { ctype := .recv, sendBufs := [recvBuf], sendCounts := [count], recvBufs := [recvBuf], recvCounts := [count], peerRank,
    dtype, comm }

def createSendParam (peerRank : Int) : CollParam :=
  { ctype := .send, sendBufs := [sendBuf], sendCounts := [count], recvBufs := [sendBuf], recvCounts := [count], peerRank,
    dtype, comm }

end

/-- `ccl_coll_param::validate`. -/
def CollParam.validate (proc : Process) (param : CollParam) : Bool :=
  let size := proc.size param.comm
  let rank := proc.rank param.comm
  param.ctype == .barrier ||
  !param.sendCounts.isEmpty && !param.recvCounts.isEmpty && !param.sendBufs.isEmpty && !param.recvBufs.isEmpty &&
  match param.ctype with
  | .alltoallv =>
    (param.sendBufs.length == 1 || param.sendBufs.length == size) &&
    (param.recvBufs.length == 1 || param.recvBufs.length == size) &&
    param.sendCounts[rank]? == param.recvCounts[rank]? &&
    (param.sendCounts.length == 1 || param.sendCounts.length == size) &&
    (param.recvCounts.length == 1 || param.recvCounts.length == size)
  | .allgatherv =>
    (param.recvBufs.length == 1 || param.recvBufs.length == size) && param.sendCounts.length == 1 &&
    param.sendCounts[0]? == param.recvCounts[rank]? &&
    (param.recvCounts.length == 1 || param.recvCounts.length == size)
  | .barrier => true
  | .recv => true
  | .send => true
  | ctype =>
    param.sendBufs.length == param.sendCounts.length && param.recvBufs.length == param.recvCounts.length &&
    (ctype != .bcast || param.sendBufs[0]? == param.recvBufs[0]?) &&
    (!(ctype == .allreduce || ctype == .reduceScatter || ctype == .reduce) ||
      param.reduction != reductionAvg && param.reduction < reductionPredefinedOps) &&
    param.sendCounts.length == 1 &&
    if ctype == .reduceScatter then param.sendCounts[0]? == param.recvCounts[0]?.map fun c => c * size % 2 ^ 64
    else param.sendCounts[0]? == param.recvCounts[0]?

/-- `ccl_coll_validate_user_input`. -/
def validateUserInput (proc : Process) (param : CollParam) (attr : CollAttr) : Bool :=
  (proc.ofi || attr.reductionFn == 0) &&
  (proc.isPredefined param.dtype || proc.ofi) &&
  (param.ctype != .allreduce && param.ctype != .reduce || proc.isPredefined param.dtype || attr.reductionFn != 0) &&
  (param.ctype == .allreduce || attr.reductionFn == 0) &&
  (param.ctype == .allgatherv || !attr.isVectorBuf) &&
  (!(param.ctype == .bcast || param.ctype == .broadcast || param.ctype == .reduce) ||
    param.root < proc.size param.comm)

/-- The parameters that the calls of the interface make. Arrays are as long as the communicator. -/
inductive Created (proc : Process) (attr : CollAttr) : CollParam → Prop
  | allgather (sendBuf recvBuf count dtype comm : Nat) :
    Created proc attr (createAllgatherParam sendBuf recvBuf count dtype comm)
  | allgatherv (sendBuf count dtype comm : Nat) (recvBuf recvCounts : List Nat)
    (hbufs : recvBuf.length = proc.bufCount attr comm) (hcounts : recvCounts.length = proc.size comm) :
    Created proc attr (createAllgathervParam proc attr sendBuf count dtype comm recvBuf recvCounts)
  | allreduce (sendBuf recvBuf count dtype comm reduction : Nat) :
    Created proc attr (createAllreduceParam sendBuf recvBuf count dtype comm reduction)
  | alltoall (sendBuf recvBuf count dtype comm : Nat) :
    Created proc attr (createAlltoallParam sendBuf recvBuf count dtype comm)
  | alltoallv (dtype comm : Nat) (sendBuf sendCounts recvBuf recvCounts : List Nat)
    (hsend : sendBuf.length = proc.bufCount attr comm)
    (hrecv : recvBuf.length = proc.bufCount attr comm)
    (hsends : sendCounts.length = proc.size comm) (hrecvs : recvCounts.length = proc.size comm) :
    Created proc attr (createAlltoallvParam proc attr dtype comm sendBuf sendCounts recvBuf recvCounts)
  | barrier (comm : Nat) : Created proc attr (createBarrierParam comm)
  | bcast (buf count dtype comm : Nat) (root : Int) : Created proc attr (createBcastParam buf count dtype comm root)
  | broadcast (sendBuf recvBuf count dtype comm : Nat) (root : Int) :
    Created proc attr (createBroadcastParam sendBuf recvBuf count dtype comm root)
  | reduce (sendBuf recvBuf count dtype comm reduction : Nat) (root : Int) :
    Created proc attr (createReduceParam sendBuf recvBuf count dtype comm reduction root)
  | reduceScatter (sendBuf recvBuf count dtype comm reduction : Nat) :
    Created proc attr (createReduceScatterParam proc sendBuf recvBuf count dtype comm reduction)
  | recv (recvBuf count dtype comm : Nat) (peerRank : Int) :
    Created proc attr (createRecvParam recvBuf count dtype comm peerRank)
  | send (sendBuf count dtype comm : Nat) (peerRank : Int) :
    Created proc attr (createSendParam sendBuf count dtype comm peerRank)

section

variable {proc : Process} {attr : CollAttr} {comm : Nat}

variable {bufs recvBuf recvCounts : List Nat} {sendBuf count dtype : Nat}

theorem take_bufs (h : bufs.length = proc.bufCount attr comm) :
    (if attr.isVectorBuf then bufs.take (proc.size comm) else bufs.take 1) = bufs := by
  unfold Process.bufCount at h
  split at h
  · next hv => rw [if_pos hv, take_of_length_le h.le]
  · next hv => rw [if_neg hv, take_of_length_le h.le]

variable (attr) in
theorem recvBufs_createAllgathervParam (h : recvBuf.length = proc.bufCount attr comm) :
    (createAllgathervParam proc attr sendBuf count dtype comm recvBuf recvCounts).recvBufs = recvBuf :=
  take_bufs h

theorem length_bufs (h : bufs.length = proc.bufCount attr comm) :
    bufs.isEmpty = false ∧ (bufs.length == 1 || bufs.length == proc.size comm) = true := by
  have hpos := proc.rank_lt comm
  rw [isEmpty_eq_false_iff, ← length_pos_iff]
  unfold Process.bufCount at h
  split at h
  · exact ⟨by omega, by simp [h]⟩
  · exact ⟨by omega, by simp [h]⟩

theorem length_counts {counts : List Nat} (h : counts.length = proc.size comm) :
    counts.isEmpty = false ∧ (counts.length == 1 || counts.length == proc.size comm) = true := by
  have hpos := proc.rank_lt comm
  rw [isEmpty_eq_false_iff, ← length_pos_iff]
  exact ⟨by omega, by simp [h]⟩

theorem validate_createAllgathervParam
    (hbufs : recvBuf.length = proc.bufCount attr comm) (hcounts : recvCounts.length = proc.size comm) :
    (createAllgathervParam proc attr sendBuf count dtype comm recvBuf recvCounts).validate proc =
      (some count == recvCounts[proc.rank comm]?) := by
  obtain ⟨hb, hbl⟩ := length_bufs hbufs
  obtain ⟨hc, hcl⟩ := length_counts hcounts
  simp only [CollParam.validate, createAllgathervParam, take_bufs hbufs, take_of_length_le hcounts.le, hb,
    hbl, hc, hcl, isEmpty_cons, length_singleton, Bool.not_false, Bool.true_and, Bool.and_true, beq_self_eq_true,
    getElem?_cons_zero]
  rfl

theorem validate_createAlltoallvParam {sendBuf sendCounts : List Nat}
    (hsend : sendBuf.length = proc.bufCount attr comm)
    (hrecv : recvBuf.length = proc.bufCount attr comm)
    (hsends : sendCounts.length = proc.size comm) (hrecvs : recvCounts.length = proc.size comm) :
    (createAlltoallvParam proc attr dtype comm sendBuf sendCounts recvBuf recvCounts).validate proc =
      (sendCounts[proc.rank comm]? == recvCounts[proc.rank comm]?) := by
  obtain ⟨hb, hbl⟩ := length_bufs hsend
  obtain ⟨hb', hbl'⟩ := length_bufs hrecv
  obtain ⟨hc, hcl⟩ := length_counts hsends
  obtain ⟨hc', hcl'⟩ := length_counts hrecvs
  simp only [CollParam.validate, createAlltoallvParam, take_bufs hsend, take_bufs hrecv,
    take_of_length_le hsends.le, take_of_length_le hrecvs.le, hb, hbl, hb', hbl', hc, hcl,
    hc', hcl', Bool.not_false, Bool.true_and, Bool.and_true]
  rfl

end

/-- A call that got past the checks. Counts are of type `size_t`, and the data of a `reduce_scatter` fits the memory. -/
structure CollCall (proc : Process) where
  param : CollParam
  attr : CollAttr
  created : Created proc attr param
  validate : param.validate proc = true
  validateUserInput : validateUserInput proc param attr = true
  sendCounts_lt : ∀ c ∈ param.sendCounts, c < 2 ^ 64
  recvCounts_lt : ∀ c ∈ param.recvCounts, c < 2 ^ 64
  fits : param.ctype = .reduceScatter → ∀ c ∈ param.recvCounts, proc.size param.comm * c < 2 ^ 64

end OneCcl
