import OneCcl.Comm.SchedId
import OneCcl.Comm.CommSplit
import OneCcl.Comm.CommIdSafe
import OneCcl.Coll.SelectionCorrect
import OneCcl.Coll.MatchId
import OneCcl.Coll.RecursiveDoubling
import OneCcl.Coll.RabenseifnerAllreduce
import OneCcl.Coll.RabenseifnerReduceExec
import OneCcl.Coll.BinomialReduce
import OneCcl.Coll.ScatterRingBroadcast
import OneCcl.Coll.ScatterLengths
import OneCcl.Coll.BcastInts
import OneCcl.Coll.RingReduceScatterExec
import OneCcl.Coll.NreduceAllreduceExec
import OneCcl.Coll.NaiveAllgathervExec
import OneCcl.Coll.DoubleTreeExec
import OneCcl.Coll.SubschedTags
import OneCcl.Coll.DisseminationBarrier
import OneCcl.Coll.SyclPlacement
import OneCcl.Coll.SyclRabenseifner
import OneCcl.Fusion.Key
import OneCcl.Fusion.Batches
import OneCcl.Ze.EvictChunk
import OneCcl.Ze.IpcHandleCache
import OneCcl.Sched.RecycleStorage
import OneCcl.Sched.SchedGroup
import OneCcl.Unordered.StartedOnce
import OneCcl.Pmi.Barrier
import OneCcl.Pmi.Kvs
import OneCcl.Progress.SyncPoint
import OneCcl.Progress.Workers
import OneCcl.Ze.SubschedSubmission
