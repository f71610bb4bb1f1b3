import OneCcl.Coll.NreduceAllreduce
import OneCcl.Coll.RingAllgatherv
import OneCcl.Coll.RingReduceScatter

/-!
# 2D allreduce

`ccl_coll_build_2d_allreduce`. The ranks form a grid, and a rank has a communicator for its line in each dimension. A chunk
of the data is reduce-scattered over the first dimension, allreduced over the second and gathered over the first again. The
chunks are pipelined by sub-schedules: behind the reduce-scatter of a chunk a schedule starts one that goes on with that
chunk, `AR_AG`, and one for the next chunk, `RS_AR_AG`, which starts two more in turn.
-/

namespace OneCcl

/-! ## Communicators inside one another -/

/-- The ranks an entry names, in the numbering of another communicator. -/
def EntryKind.onRanks (f : Nat → Nat) : EntryKind → EntryKind
  | .send buf cnt dst => .send buf cnt (f dst)
  | .recv buf cnt src => .recv buf cnt (f src)
  | .recvReduce inoutBuf cnt src commBuf result => .recvReduce inoutBuf cnt (f src) commBuf result
  | .recvCopy recvBuf copyBuf cnt src => .recvCopy recvBuf copyBuf cnt (f src)
  | kind => kind

/-- Fill a schedule with entries on a communicator whose rank `i` is rank `f i`. -/
def Sched.onComm (f : Nat → Nat) (build : Sched → Option Sched) (sched : Sched) : Option Sched :=
  (build sched).map fun s =>
    { s with
      entries := s.entries.take sched.entries.length ++
        (s.entries.drop sched.entries.length).map fun e => { e with kind := e.kind.onRanks f } }

/-- A rank's line in one dimension. -/
structure DimComm where
  comm : CclComm
  rank : Nat
  global : Nat → Nat

/-! ## The builder -/

/-- The settings of the builders. -/
structure TwoDimEnv where
  rs : RsEnv
  nreduce : NreduceEnv

section

variable (env : TwoDimEnv) (sendBuf recvBuf : CclBuffer) (count dtypeSize : Nat) (firstDim secondDim : DimComm)
  (chunkCount : Nat)

/-- `cnt`: how long a chunk is. -/
def chunkCnt (chunkIdx : Nat) : Nat :=
  let mainChunkSize := count / chunkCount
  let lastChunkSize := mainChunkSize + count % chunkCount
  if chunkIdx = chunkCount - 1 then lastChunkSize else mainChunkSize

/-- `ccl_allreduce_2d_add_allreduce_allgather`. -/
def allreduce2dAddAllreduceAllgather (chunkIdx : Nat) (sched : Sched) : Option Sched := do
  let cnt := chunkCnt count chunkCount chunkIdx
  let rbuf := recvBuf + chunkIdx * (count / chunkCount)
  let mainBlockCount := cnt / firstDim.comm.size
  let lastBlockCount := mainBlockCount + cnt % firstDim.comm.size
  let blockCount := fun r => if r = firstDim.comm.size - 1 then lastBlockCount else mainBlockCount
  let arCount := blockCount firstDim.rank
  let arBuf := rbuf + firstDim.rank * mainBlockCount
  let sched ←
    if arCount ≠ 0 then
      (sched.onComm secondDim.global
        (cclCollBuildNreduceAllreduce env.nreduce arBuf arBuf arCount dtypeSize secondDim.comm secondDim.rank)).map
        (·.addBarrier)
    else some sched
  sched.onComm firstDim.global fun sched =>
    (cclCollBuildRingAllgatherv false env.nreduce.checkInplaceAliasing arBuf arCount rbuf blockCount firstDim.comm.size
      firstDim.rank ⟨[sched], 0⟩).map (·.sub 0)

/-- A schedule that a `SUBSCHED` entry runs, with its operation id. -/
structure SubSched where
  opId : Nat
  sched : Sched
  deriving DecidableEq, Repr

/-- `ccl_allreduce_2d_add_reduce_scatter_allreduce_allgather` for a chunk that has `rest` more behind it: the schedule, and
all the schedules below it. -/
def allreduce2dAddReduceScatterAllreduceAllgather : (rest chunkIdx : Nat) → Sched → Option (Sched × List SubSched)
  | rest, chunkIdx, sched => do
    let cnt := chunkCnt count chunkCount chunkIdx
    let sbuf := sendBuf + chunkIdx * (count / chunkCount)
    let rbuf := recvBuf + chunkIdx * (count / chunkCount)
    let sched ← sched.onComm firstDim.global
      (cclCollBuildReduceScatterBlock env.rs sbuf rbuf cnt dtypeSize firstDim.comm firstDim.rank)
    let sched := sched.addBarrier
    match rest with
    | 0 =>
      let sched ← allreduce2dAddAllreduceAllgather env recvBuf count dtypeSize firstDim secondDim chunkCount chunkIdx sched
      return (sched, [])
    | rest + 1 =>
      let arAg ← allreduce2dAddAllreduceAllgather env recvBuf count dtypeSize firstDim secondDim chunkCount chunkIdx
        (.new (2 * chunkIdx + 1))
      let (rsArAg, below) ← allreduce2dAddReduceScatterAllreduceAllgather rest (chunkIdx + 1) (.new (2 * chunkIdx + 2))
      return ((sched.create (.subsched (2 * chunkIdx + 1))).create (.subsched (2 * chunkIdx + 2)),
        ⟨chunkIdx, arAg⟩ :: ⟨chunkIdx + 1, rsArAg⟩ :: below)

/-- `ccl_coll_build_2d_allreduce`, where `chunk_count` is `allreduce_2d_chunk_count`. -/
def cclCollBuild2dAllreduce (sched : Sched) : Option (Sched × List SubSched) :=
  if count = 0 then some (sched, [])
  else
    allreduce2dAddReduceScatterAllreduceAllgather env sendBuf recvBuf count dtypeSize firstDim secondDim chunkCount
      (chunkCount - 1) 0 sched

end

section

variable {env : TwoDimEnv} {sendBuf recvBuf : CclBuffer} {count dtypeSize : Nat} {firstDim secondDim : DimComm}
  {chunkCount chunkIdx : Nat} {sched rs : Sched}
  (hrs : sched.onComm firstDim.global (cclCollBuildReduceScatterBlock env.rs (sendBuf + chunkIdx * (count / chunkCount))
    (recvBuf + chunkIdx * (count / chunkCount)) (chunkCnt count chunkCount chunkIdx) dtypeSize firstDim.comm firstDim.rank) =
      some rs)

include hrs

theorem addReduceScatterAllreduceAllgather_zero {s : Sched}
    (hs : allreduce2dAddAllreduceAllgather env recvBuf count dtypeSize firstDim secondDim chunkCount chunkIdx rs.addBarrier =
      some s) :
    allreduce2dAddReduceScatterAllreduceAllgather env sendBuf recvBuf count dtypeSize firstDim secondDim chunkCount 0
      chunkIdx sched = some (s, []) := by
  unfold allreduce2dAddReduceScatterAllreduceAllgather
  exact (congrArg (· >>= _) hrs).trans (congrArg (· >>= _) hs)

theorem addReduceScatterAllreduceAllgather_succ {rest : Nat} {arAg rsArAg : Sched} {below : List SubSched}
    (harAg : allreduce2dAddAllreduceAllgather env recvBuf count dtypeSize firstDim secondDim chunkCount chunkIdx
      (.new (2 * chunkIdx + 1)) = some arAg)
    (hbelow : allreduce2dAddReduceScatterAllreduceAllgather env sendBuf recvBuf count dtypeSize firstDim secondDim chunkCount
      rest (chunkIdx + 1) (.new (2 * chunkIdx + 2)) = some (rsArAg, below)) :
    allreduce2dAddReduceScatterAllreduceAllgather env sendBuf recvBuf count dtypeSize firstDim secondDim chunkCount
      (rest + 1) chunkIdx sched =
        some ((rs.addBarrier.create (.subsched (2 * chunkIdx + 1))).create (.subsched (2 * chunkIdx + 2)),
          ⟨chunkIdx, arAg⟩ :: ⟨chunkIdx + 1, rsArAg⟩ :: below) := by
  unfold allreduce2dAddReduceScatterAllreduceAllgather
  exact (congrArg (· >>= _) hrs).trans ((congrArg (· >>= _) harAg).trans (congrArg (· >>= _) hbelow))

end

end OneCcl
