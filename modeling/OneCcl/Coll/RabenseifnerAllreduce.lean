import OneCcl.Coll.WindowRounds

/-!
# Rabenseifner's allreduce

`ccl_coll_build_rabenseifner_allreduce`: after folding the ranks onto a power of two, a reduce-scatter by recursive
halving and an allgather by recursive doubling. In step `k` of the first a rank receives and reduces the
segment it keeps while its partner's segment is being sent; in step `k` of the second the same two segments
travel the other way.

`rabenseifner_allreduce_correct` is the contract.
-/

namespace OneCcl

open Async List Reduction CclBuffer

/-! ## The builder -/

section

variable (recvBuf tmpBuf : CclBuffer) (count pof2 rem newrank : Nat)

def reduceScatterStep (x : Windows) (sched : Sched) : Option (Windows × Sched) := do
  let newdst := newrank ^^^ x.mask
  let dst := realRank rem newdst
  let (x, sendCnt, recvCnt) := halving (blockCnts count pof2) pof2 newrank newdst x
  let buf1 := recvBuf + blockDisps count pof2 x.sendIdx
  let buf2 := recvBuf + blockDisps count pof2 x.recvIdx
  let canUseRecvReduce := buf1 ≠ buf2 ∧ ((buf1 + sendCnt).le buf2 ∨ (buf2 + recvCnt).le buf1)
  if canUseRecvReduce then
    let sched ← sched.createRecvReduce buf2 recvCnt dst .empty .localBuf
    let sched := (sched.create (.send buf1 sendCnt dst)).addBarrier
    return (halvingNext pof2 x, sched)
  else
    let sched := sched.create (.recv (tmpBuf + blockDisps count pof2 x.recvIdx) recvCnt dst)
    let sched := (sched.create (.send buf1 sendCnt dst)).addBarrier
    let sched :=
      (sched.create (.reduceLocal (tmpBuf + blockDisps count pof2 x.recvIdx) recvCnt buf2)).addBarrier
    return (halvingNext pof2 x, sched)

def reduceScatterLoop : Nat → Windows → Sched → Option (Windows × Sched)
  | 0, x, sched => some (x, sched)
  | fuel + 1, x, sched =>
    if x.mask < pof2 then do
      let (x, sched) ← reduceScatterStep recvBuf tmpBuf count pof2 rem newrank x sched
      reduceScatterLoop fuel x sched
    else some (x, sched)

def allgatherStep (x : Windows) (sched : Sched) : Windows × Sched :=
  let newdst := newrank ^^^ x.mask
  let dst := realRank rem newdst
  let (x, sendCnt, recvCnt) := doubling (blockCnts count pof2) pof2 newrank newdst x
  let sched := sched.create (.recv (recvBuf + blockDisps count pof2 x.recvIdx) recvCnt dst)
  let sched := (sched.create (.send (recvBuf + blockDisps count pof2 x.sendIdx) sendCnt dst)).addBarrier
  (doublingNext newrank newdst x, sched)

def allgatherLoop : Nat → Windows → Sched → Windows × Sched
  | 0, x, sched => (x, sched)
  | fuel + 1, x, sched =>
    if x.mask > 0 then
      let (x, sched) := allgatherStep recvBuf count pof2 rem newrank x sched
      allgatherLoop fuel x sched
    else (x, sched)

def rabenseifnerMain (sched : Sched) : Option Sched := do
  let (x, sched) ← reduceScatterLoop recvBuf tmpBuf count pof2 rem newrank pof2 ⟨1, 0, 0, pof2⟩ sched
  let x := { x with mask := x.mask >>> 1 }
  return (allgatherLoop recvBuf count pof2 rem newrank pof2 x sched).2

end

/-- `ccl_coll_build_rabenseifner_allreduce`. -/
def cclCollBuildRabenseifnerAllreduce (sendBuf recvBuf : CclBuffer) (count : Nat) (comm : CclComm) :
    Nat → Sched → Option Sched :=
  buildFolded (fun tmpBuf => rabenseifnerMain recvBuf tmpBuf count comm.pof2 (comm.size - comm.pof2)) false
    sendBuf recvBuf count comm

/-! ## The rounds -/

namespace AllreduceCall

variable (A : AllreduceCall)

/-- The blocks of the ranks that take part. -/
abbrev blocks : Nat → Nat := blockCnts A.count (2 ^ A.log)

/-- What new rank `v` exchanges in step `k` of the reduce-scatter. -/
def reduceScatterSwap (k v : Nat) : Swap :=
  let dst := A.real (v ^^^ 2 ^ k)
  ⟨.recvReduce (A.recvBuf + tableStart A.blocks A.log (k + 1) v) (tableCnt A.blocks A.log (k + 1) v) dst
      ⟨.alloc 0 (k + 1), 0⟩ .localBuf,
    A.recvBuf + tableStart A.blocks A.log (k + 1) (v ^^^ 2 ^ k), dst, tableCnt A.blocks A.log (k + 1) (v ^^^ 2 ^ k),
    dst, tableCnt A.blocks A.log (k + 1) v⟩

/-- Step `k` of the reduce-scatter. -/
def reduceScatterRounds (k : Nat) : List SchedRound :=
  [.ofKinds true (swapKinds false (A.onFolded (A.reduceScatterSwap k)))]

/-- The rounds between folding in and folding out. -/
def rabenseifnerRounds : List SchedRound :=
  (range A.log).flatMap A.reduceScatterRounds ++ (range A.log).reverse.map (A.windowRound A.blocks false)

variable {A} {k v fuel i : Nat} {s : Sched}

theorem reduceScatterSwap_good (hk : k < A.log) : SwapGood (A.onFolded (A.reduceScatterSwap k)) A.n := by
  refine Numbering.swapGood_on hk (fun _ _ => rfl) (fun _ _ => rfl) (fun _ _ => rfl) (fun v _ => ?_) fun v _ =>
    ⟨fun p hp q hq => ?_, forall_mem_nil _⟩
  · show tableCnt _ _ _ _ = tableCnt _ _ _ _
    rfl
  · rw [mem_singleton.mp hq]
    rcases mem_pair.mp hp with rfl | rfl
    · exact table_apart A.blocks A.recvBuf hk v
    · exact .inl (A.recvBuf_ne_alloc 0 _).symm

/-! ## The builder makes the rounds -/

theorem reduceScatterStep_eq (hcount : A.count < 2 ^ 31) (hle : 2 ^ A.log ≤ A.count) (hk : k < A.log)
    (hv : v < 2 ^ A.log) (hnum : s.num = 0) (hallocs : s.allocs = k + 1) :
    ∃ s', reduceScatterStep A.recvBuf foldTmp A.count (2 ^ A.log) A.rem v (halvingHead A.log v k) s =
        some (halvingHead A.log v (k + 1), s') ∧ s'.num = 0 ∧ s'.allocs = k + 2 ∧
      s'.entries = s.entries ++ (A.reduceScatterRounds k).flatMap (· (A.real v)) := by
  obtain ⟨lastIdx, hidx, hnext⟩ := halving_table A.blocks hk v
  have hlt : ∀ v, tableStart A.blocks A.log (k + 1) v < tableEnd A.blocks A.log (k + 1) v :=
    blockCnts_start_lt_end hcount hle (k + 1)
  have hpos : 0 < tableCnt A.blocks A.log (k + 1) v := Nat.sub_pos_of_lt (hlt v)
  have hne : A.recvBuf + blockDisps A.count (2 ^ A.log) (windowStart A.log (k + 1) (v ^^^ 2 ^ k)) ≠
      A.recvBuf + blockDisps A.count (2 ^ A.log) (windowStart A.log (k + 1) v) := by
    intro hc
    have hc := congrArg offset hc
    simp only [add_offset, blockDisps_eq] at hc
    have hc : tableStart A.blocks A.log (k + 1) (v ^^^ 2 ^ k) = tableStart A.blocks A.log (k + 1) v :=
      Nat.add_left_cancel hc
    have h := table_halves A.blocks hk v
    have h1 := hlt v
    have h2 := hlt (v ^^^ 2 ^ k)
    omega
  have hbool : ∀ a : Nat, toBool (A.recvBuf + a) = true := by
    intro a
    rw [CclBuffer.toBool, CclBuffer.add_src, decide_eq_true A.recvBuf_ne_null]
  have hcan : ∀ a b c : Nat, le (A.recvBuf + a + b) (A.recvBuf + c) = true := by
    intro a b c
    rw [le, hbool, Bool.or_true]
  unfold reduceScatterStep
  rw [show (halvingHead A.log v k).mask = 2 ^ k from rfl]
  dsimp only
  rw [hidx]
  have hsrc : (A.recvBuf + blockDisps A.count (2 ^ A.log) (windowStart A.log (k + 1) v)).src ≠ .null :=
    A.recvBuf_ne_null
  rw [hnext, s.createRecvReduce_alloc _ hsrc hpos]
  refine ⟨_, if_pos ⟨hne, .inl (hcan _ _ _)⟩, ?_, ?_, ?_⟩
  · exact hnum
  · show s.allocs + 1 = k + 2
    rw [hallocs]
  · rw [Sched.addBarrier_create_entries, reduceScatterRounds, flatMap_singleton, SchedRound.ofKinds, swapKinds,
      onFolded_real _ hv]
    simp [Swap.kinds, reduceScatterSwap, hnum, hallocs, tableStart, blockDisps_eq]

theorem reduceScatterLoop_eq (hcount : A.count < 2 ^ 31) (hle : 2 ^ A.log ≤ A.count) (hv : v < 2 ^ A.log)
    (hnum : s.num = 0) (hallocs : s.allocs = 1) :
    ∃ s', reduceScatterLoop A.recvBuf foldTmp A.count (2 ^ A.log) A.rem v (2 ^ A.log) ⟨1, 0, 0, 2 ^ A.log⟩ s =
        some (halvingHead A.log v A.log, s') ∧
      s'.entries = s.entries ++ ((range A.log).flatMap A.reduceScatterRounds).flatMap (· (A.real v)) := by
  rw [← halvingHead_zero A.log v, flatMap_assoc]
  refine loop_entries (I := fun k s => s.num = 0 ∧ s.allocs = k + 1) _ (fun x s => some (x, s)) _
    (fun _ _ => rfl) (fun _ _ => if_neg (lt_irrefl _)) (fun k hk fuel s hs => ?_) Nat.lt_two_pow_self.le
    ⟨hnum, hallocs⟩
  obtain ⟨s', hstep, hnum', hallocs', hs'⟩ := reduceScatterStep_eq hcount hle hk hv hs.1 hs.2
  refine ⟨s', ?_, ⟨hnum', hallocs'⟩, hs'⟩
  rw [reduceScatterLoop, if_pos (halvingHead_mask_lt hk), hstep]
  rfl

theorem allgatherStep_eq (hk : k < A.log) (hv : v < 2 ^ A.log) (recvIdx : Nat) (s : Sched) :
    ∃ x s', allgatherStep A.recvBuf A.count (2 ^ A.log) A.rem v (doublingHead A.log v k recvIdx) s = (x, s') ∧
      x = ⟨2 ^ k >>> 1, windowStart A.log k v, windowStart A.log (k + 1) (v ^^^ 2 ^ k),
        windowStart A.log k v + 2 ^ (A.log - k)⟩ ∧
      s'.entries = s.entries ++ A.windowRound A.blocks false k (A.real v) := by
  obtain ⟨lastIdx, hidx, hnext⟩ := doubling_table A.blocks hk v recvIdx
  unfold allgatherStep
  rw [show (doublingHead A.log v k recvIdx).mask = 2 ^ k from rfl]
  dsimp only
  rw [hidx]
  refine ⟨_, _, rfl, hnext, ?_⟩
  rw [Sched.addBarrier_create_entries, Sched.create_entries, windowRound, SchedRound.ofKinds, swapKinds,
    onFolded_real _ hv]
  simp [Swap.kinds, windowSwap, tableStart, blockDisps_eq]

theorem allgatherLoop_eq (hv : v < 2 ^ A.log) (hk : k < A.log) (hfuel : k < fuel) (recvIdx : Nat) (s : Sched) :
    (allgatherLoop A.recvBuf A.count (2 ^ A.log) A.rem v fuel (doublingHead A.log v k recvIdx) s).2.entries =
      s.entries ++ ((range (k + 1)).reverse.map (A.windowRound A.blocks false)).flatMap (· (A.real v)) := by
  rw [flatMap_map]
  refine gather_entries (fun fuel x s => (allgatherLoop A.recvBuf A.count (2 ^ A.log) A.rem v fuel x s).2)
    Windows.mask (doublingHead A.log v) (fun _ _ => rfl) (fun fuel x s hx => ?_) (fun k hk fuel recvIdx s => ?_) hk
    hfuel recvIdx s
  · rw [allgatherLoop, if_neg (by rw [hx]; exact Nat.lt_irrefl 0)]
  · obtain ⟨x, s', hstep, hx, hs'⟩ := allgatherStep_eq hk hv recvIdx s
    refine ⟨x, s', ?_, hs', ?_, ?_⟩
    · rw [allgatherLoop, if_pos (show (doublingHead A.log v k recvIdx).mask > 0 from Nat.two_pow_pos k), hstep]
    · rintro rfl
      rw [hx]
      rfl
    · rintro j rfl
      exact ⟨_, hx.trans (doublingHead_eq hk v _)⟩

theorem rabenseifner_mainRounds (hcount : A.count < 2 ^ 31) (hle : A.comm.pof2 ≤ A.count) :
    A.MainRounds (fun tmpBuf => rabenseifnerMain A.recvBuf tmpBuf A.count A.comm.pof2 (A.comm.size - A.comm.pof2))
      A.rabenseifnerRounds := by
  rw [A.pof2_eq] at hle ⊢
  rw [A.size_sub_pof2]
  refine ⟨fun v hv s hnum hallocs => ?_, fun r hr => ?_, fun hone => ?_, fun R hR => ?_⟩
  · obtain ⟨s₁, hloop, hs₁⟩ := reduceScatterLoop_eq hcount hle hv hnum hallocs
    refine ⟨(allgatherLoop A.recvBuf A.count (2 ^ A.log) A.rem v (2 ^ A.log)
      { halvingHead A.log v A.log with mask := (halvingHead A.log v A.log).mask >>> 1 } s₁).2, ?_, ?_⟩
    · unfold rabenseifnerMain
      rw [hloop]
      rfl
    · rw [rabenseifnerRounds, flatMap_append, ← append_assoc, ← hs₁]
      rcases Nat.eq_zero_or_pos A.log with hzero | hpos
      · rw [hzero]
        simp [allgatherLoop, halvingHead]
      · obtain ⟨k, hk⟩ : ∃ k, A.log = k + 1 := ⟨A.log - 1, by omega⟩
        have htop := halvingHead_top v k
        rw [← hk] at htop
        have hfuel : k < 2 ^ A.log := Nat.lt_of_lt_of_le (by omega) Nat.lt_two_pow_self.le
        rw [htop, allgatherLoop_eq hv (by omega) hfuel, hk]
  · refine flatMap_eq_nil_iff.mpr fun R hR => ?_
    rcases mem_append.mp hR with hR | hR
    · obtain ⟨k, -, hR⟩ := mem_flatMap.mp hR
      rw [mem_singleton.mp hR, SchedRound.ofKinds, swapKinds, onFolded_of_newRank _ hr, Option.elim_none, entriesOf_nil]
    · obtain ⟨k, -, rfl⟩ := mem_map.mp hR
      rw [windowRound, SchedRound.ofKinds, swapKinds, onFolded_of_newRank _ hr, Option.elim_none, entriesOf_nil]
  · rw [rabenseifnerRounds, A.log_of_one hone]
    rfl
  · rcases mem_append.mp hR with hR | hR
    · obtain ⟨k, hk, hR⟩ := mem_flatMap.mp hR
      exact ⟨_, (reduceScatterSwap_good (mem_range.mp hk)).kindsGood false, mem_singleton.mp hR⟩
    · obtain ⟨k, hk, rfl⟩ := mem_map.mp hR
      exact ⟨_, (windowSwap_good _ (mem_range.mp (mem_reverse.mp hk))).kindsGood false, rfl⟩

/-! ## What the rounds compute -/

theorem reduceScatterRounds_exec {α : Type} (op : α → α → α) (hk : k < A.log) (σ : Nat → Mem α) (hv : v < 2 ^ A.log)
    (hlo : tableStart A.blocks A.log (k + 1) v ≤ i) (hhi : i < tableEnd A.blocks A.log (k + 1) v) :
    execRounds op (A.reduceScatterRounds k) σ (A.real v) (A.recvBuf.at i) =
      op (σ (A.real v) (A.recvBuf.at i)) (σ (A.real (v ^^^ 2 ^ k)) (A.recvBuf.at i)) := by
  obtain ⟨j, rfl⟩ := Nat.exists_eq_add_of_le hlo
  have hj : j < tableCnt A.blocks A.log (k + 1) v := by
    unfold tableCnt
    omega
  have hapart : PieceApart (⟨.alloc 0 (k + 1), 0⟩, tableCnt A.blocks A.log (k + 1) v)
      (A.recvBuf + tableStart A.blocks A.log (k + 1) v, tableCnt A.blocks A.log (k + 1) v) :=
    .inl (A.recvBuf_ne_alloc 0 _).symm
  have hpart := onFolded_real (A.reduceScatterSwap k) (xor_two_pow_lt hv hk)
  -- the partner sends the segment that the partner's partner keeps
  have hbuf : (A.reduceScatterSwap k (v ^^^ 2 ^ k)).buf = A.recvBuf + tableStart A.blocks A.log (k + 1) v := by
    simp only [reduceScatterSwap, Nat.xor_xor_cancel_right]
  have hcnt : (A.reduceScatterSwap k (v ^^^ 2 ^ k)).sendCnt = tableCnt A.blocks A.log (k + 1) v := by
    simp only [reduceScatterSwap, Nat.xor_xor_cancel_right]
  have hexec := (reduceScatterSwap_good hk).exec_recvReduce_at op true false σ (onFolded_real _ hv) hpart
    rfl hcnt hapart.disjoint hj
  show SchedRound.exec op _ σ _ _ = _
  rw [← add_at, hexec, hbuf]
  rfl

end AllreduceCall

/-! ## The contract -/

/-- **Rabenseifner's allreduce is correct**: at every size and every count that gives each of the power of two of
ranks a block, in place or not, every run of the schedules completes and leaves the reduction of all data at
every rank, and every send has its receive. -/
theorem rabenseifner_allreduce_correct {α : Type} (op : α → α → α) [Std.Commutative op] [Std.Associative op]
    (comm : CclComm) {sendBuf : Nat → CclBuffer} {recvBuf : CclBuffer} {count : Nat}
    (hbufs : ∀ r < comm.size, CollBufs (sendBuf r) recvBuf count) (hle : comm.pof2 ≤ count) (hcount : count < 2 ^ 31)
    (tag : Nat) (eager : Nat → Nat → Bool) (mem : Nat → Mem α) : ∃ sched : Nat → Sched,
      (∀ r < comm.size, cclCollBuildRabenseifnerAllreduce (sendBuf r) recvBuf count comm r (.new 0) =
        some (sched r)) ∧
      ((schedNet op comm.size tag eager sched).Completes mem fun s => ∀ r < comm.size, ∀ i < count,
        s.mem r (recvBuf.at i) = reduceRange op comm.size fun q => mem q ((sendBuf q).at i)) ∧
      MessagesMatch comm.size sched := by
  let A : AllreduceCall := ⟨comm, sendBuf, recvBuf, count, hbufs⟩
  have hpos : 0 < count := Nat.lt_of_lt_of_le (by rw [comm.pof2_eq]; exact Nat.two_pow_pos _) hle
  have hmid : A.ReducesFolded A.rabenseifnerRounds op := AllreduceCall.scatter_gather_reduces A.blocks op false
    (blockCnts_end hcount) fun k hk σ v hv i hlo hhi => AllreduceCall.reduceScatterRounds_exec op hk σ hv hlo hhi
  exact (AllreduceCall.rabenseifner_mainRounds (A := A) hcount hle).contract op hpos false hmid tag eager mem

/-- Three ranks, the last of them in place, that have `q + 1` in each of five elements: all end with `6`. -/
theorem rabenseifner_allreduce_three : ∃ sched : Nat → Sched,
      (∀ r < 3, cclCollBuildRabenseifnerAllreduce (if r < 2 then ⟨.user 0, 0⟩ else ⟨.user 1, 0⟩) ⟨.user 1, 0⟩ 5
        ⟨3, by decide, by decide⟩ r (.new 0) = some (sched r)) ∧
      (schedNet (· + ·) 3 0 (fun _ _ => false) sched).Completes (fun q _ => q + 1) fun s =>
        ∀ r < 3, ∀ i < 5, s.mem r (CclBuffer.at ⟨.user 1, 0⟩ i) = 6 := by
  obtain ⟨sched, hsched, hrun, -⟩ := rabenseifner_allreduce_correct (α := Nat) (· + ·) ⟨3, by decide, by decide⟩
    (fun r _ => collBufs_mixed 2 5 r) (by decide) (by decide) 0 (fun _ _ => false) fun q _ => q + 1
  exact ⟨sched, hsched, hrun⟩

end OneCcl
