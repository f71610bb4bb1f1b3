import OneCcl.Coll.SyclChunks
import OneCcl.Comm.AtlTag

/-!
# Scale-out: which algorithm, and whether it is done

The settings that the SYCL collectives for several nodes read, the choice of the algorithm between the nodes, and the flag
`done` that it sets. Only the direct algorithms ever report that they are not done: with staging in host memory they need a
host buffer that holds the whole message.
-/

namespace OneCcl

/-- The value of an `int` as a `size_t`. -/
def asSizeT (x : Int) : Nat := (x % 2 ^ 64).toNat

theorem asSizeT_of_nat {x : Nat} (h : x < 2 ^ 64) : asSizeT x = x := by
  unfold asSizeT
  omega

/-- `allreduce_scaleout_algo`. -/
inductive AllreduceScaleoutAlgo where
  | direct
  | rabenseifner
  | ring
  deriving DecidableEq, Repr

/-- `reduce_scatter_scaleout_algo`. -/
inductive ReduceScatterScaleoutAlgo where
  | direct
  | ring
  deriving DecidableEq, Repr

/-- What the choice of the algorithm reads of a datatype. -/
inductive DtypeKind where
  | float16
  | bfloat16
  | other
  deriving DecidableEq, Repr

/-- The settings. An algorithm that is not given is `"auto"`; `copyToHost` is set unless direct GPU RDMA is on and not
disabled for the device. -/
structure SyclEnv where
  transport : AtlTransport
  esimd : Bool
  copyToHost : Bool
  lineSize : Nat
  deviceBufSize : Nat
  hostBufSize : Nat
  allreduceScaleoutThreshold : Nat
  allreduceScaleoutAlgo : Option AllreduceScaleoutAlgo
  reduceScatterScaleoutThreshold : Nat
  reduceScatterScaleoutAlgo : Option ReduceScatterScaleoutAlgo
  reduceScatterSmallThreshold : Nat
  allgathervSmallThreshold : Nat

/-- A datatype. -/
structure Dtype where
  kind : DtypeKind
  size : Nat
  size_pos : 0 < size

/-- `get_scaleout_device_buf`. -/
def scaleoutDeviceBuf : CclBuffer := ⟨.alloc 0 0, 0⟩

/-- `get_scaleout_host_buf`. -/
def scaleoutHostBuf : CclBuffer := ⟨.alloc 0 1, 0⟩

/-- `const int buf_size = get_scaleout_device_buf_size()`, as it is compared and divided. -/
def SyclEnv.deviceBufInt (env : SyclEnv) : Nat := asSizeT (asInt env.deviceBufSize)

variable {env : SyclEnv}

theorem SyclEnv.deviceBufInt_of_lt (h : env.deviceBufSize < 2 ^ 31) : env.deviceBufInt = env.deviceBufSize := by
  rw [deviceBufInt, asInt_of_lt h, asSizeT_of_nat (by omega)]

/-! ## Allreduce -/

/-- `is_pof2`. -/
def isPof2 (x : Nat) : Bool := x ≠ 0 && x &&& (x - 1) = 0

/-- `allreduce_select_large_algorithm`. -/
def allreduceSelectLargeAlgorithm (commSize : Nat) : AllreduceScaleoutAlgo :=
  if isPof2 commSize then .rabenseifner
  else if commSize ≤ 16 then .ring
  else .direct

/-- `allreduce_auto_select_tune_attr`, outside of graph recording. -/
def allreduceAutoSelectAlgo (transport : AtlTransport) (size commSize : Nat) (dtype : DtypeKind) : AllreduceScaleoutAlgo :=
  let small : Bool :=
    match dtype with
    | .float16 => commSize ≤ 8 && size ≤ 512 * 1024 || commSize > 8 && size ≤ 1024 * 1024
    | .bfloat16 => commSize ≤ 8 && size ≤ 1024 * 1024 || commSize > 8 && size ≤ 4 * 1024 * 1024
    | .other => size ≤ 4 * 1024 * 1024
  if transport ≠ .ofi ∧ small then .direct
  else if commSize ≤ 64 then allreduceSelectLargeAlgorithm commSize
  else if transport ≠ .ofi then .direct
  else allreduceSelectLargeAlgorithm commSize

/-- `allreduce_select_tune_attr`. -/
def SyclEnv.allreduceSelectAlgo (env : SyclEnv) (size commSize : Nat) (dtype : DtypeKind) : AllreduceScaleoutAlgo :=
  match env.allreduceScaleoutAlgo with
  | none => allreduceAutoSelectAlgo env.transport size commSize dtype
  | some algo => algo

/-- The flag of `allreduce_scaleout_sycl_simple`. -/
def SyclEnv.allreduceSimpleDone (env : SyclEnv) (dtypeSize count : Nat) : Bool :=
  !(env.copyToHost && env.hostBufSize < count * dtypeSize)

/-- The flag of `allreduce_scaleout_sycl`: Rabenseifner's algorithm gives up on fewer elements than the power of two below
the number of ranks, and the direct algorithm is taken then. -/
def SyclEnv.allreduceScaleoutDone (env : SyclEnv) (algo : AllreduceScaleoutAlgo) (dtypeSize commSize count : Nat) : Bool :=
  match algo with
  | .direct => env.allreduceSimpleDone dtypeSize count
  | .rabenseifner => if count < pof2 commSize then env.allreduceSimpleDone dtypeSize count else true
  | .ring => true

/-! ## Reduce-scatter -/

/-- `reduce_scatter_select_large_algorithm`. -/
def reduceScatterSelectLargeAlgorithm (commSize : Nat) : ReduceScatterScaleoutAlgo :=
  if commSize ≤ 16 then .ring else .direct

/-- `reduce_scatter_auto_select_tune_attr`, outside of graph recording: the bound is the same for every datatype. -/
def reduceScatterAutoSelectAlgo (transport : AtlTransport) (size commSize : Nat) : ReduceScatterScaleoutAlgo :=
  if transport ≠ .ofi ∧ size ≤ 1024 * 1024 then .direct
  else if commSize ≤ 64 then reduceScatterSelectLargeAlgorithm commSize
  else if transport ≠ .ofi then .direct
  else reduceScatterSelectLargeAlgorithm commSize

/-- `reduce_scatter_select_tune_attr`. -/
def SyclEnv.reduceScatterSelectAlgo (env : SyclEnv) (size commSize : Nat) : ReduceScatterScaleoutAlgo :=
  match env.reduceScatterScaleoutAlgo with
  | none => reduceScatterAutoSelectAlgo env.transport size commSize
  | some algo => algo

/-- The flag of `reduce_scatter_scaleout_sycl_simple`, whose `count` is an `int`. -/
def SyclEnv.reduceScatterSimpleDone (env : SyclEnv) (dtypeSize commSize recvCount : Nat) : Bool :=
  let count := asInt (recvCount * commSize)
  !(env.copyToHost && env.hostBufSize < asSizeT count * dtypeSize % 2 ^ 64)

/-- The flag of `reduce_scatter_scaleout_sycl`. -/
def SyclEnv.reduceScatterScaleoutDone (env : SyclEnv) (algo : ReduceScatterScaleoutAlgo)
    (dtypeSize commSize recvCount : Nat) : Bool :=
  match algo with
  | .direct => env.reduceScatterSimpleDone dtypeSize commSize recvCount
  | .ring => true

end OneCcl
