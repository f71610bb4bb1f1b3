import OneCcl.Coll.WindowRounds
import OneCcl.Coll.SyclRing

/-!
# The blocking SYCL Rabenseifner allreduce

`allreduce_sycl_rabenseifner_blocking`: the algorithm of the host schedules once more, on device memory and with the
messages posted and waited for in place. The ranks are folded in and out in the same words (`foldIn`, `foldOut`), and
the indices of the reduce-scatter are the same (`halving`). The block table is another: what does not divide is spread
over the first blocks. A message is received into the device buffer and reduced behind the wait, and the allgather
keeps its own count of how far apart the segments are (`half`).

Fewer elements than blocks are left to another algorithm. `allreduce_sycl_correct` is the contract of both blocking
allreduces.
-/

namespace OneCcl

open Async List Reduction SchedRound

/-! ## The function -/

/-- The table `newcnts`. -/
def newCnts (count pow2 i : Nat) : Nat := if i < count % pow2 then count / pow2 + 1 else count / pow2

section

variable (recvBuf tmpBuf : CclBuffer) (count pow2 rem newrank : Nat)

def syclScatterStep (x : Windows) (sched : Sched) : Windows × Sched :=
  let newdst := newrank ^^^ x.mask
  let dst := realRank rem newdst
  let newdisps := Parts.sumTo (newCnts count pow2)
  let (x, sendCnt, recvCnt) := halving (newCnts count pow2) pow2 newrank newdst x
  let sbuf := recvBuf + newdisps x.sendIdx
  let tbuf := tmpBuf + newdisps x.recvIdx
  let sched := ((sched.create (.send sbuf sendCnt dst)).create (.recv tbuf recvCnt dst)).addBarrier
  let rbuf := recvBuf + newdisps x.recvIdx
  let sched := (sched.create (.reduceLocal tbuf recvCnt rbuf)).addBarrier
  (halvingNext pow2 x, sched)

/-- The reduce-scatter: `while (mask < pow2)`. -/
def syclScatterLoop : Nat → Windows → Sched → Windows × Sched
  | 0, x, sched => (x, sched)
  | fuel + 1, x, sched =>
    if x.mask < pow2 then
      let (x, sched) := syclScatterStep recvBuf tmpBuf count pow2 rem newrank x sched
      syclScatterLoop fuel x sched
    else (x, sched)

/-- The indices in one iteration of the allgather, with `send_cnt` and `recv_cnt`. -/
def syclDoubling (cnts : Nat → Nat) (newdst half : Nat) (x : Windows) : Windows × Nat × Nat :=
  if newrank < newdst then
    let lastIdx := if x.mask ≠ pow2 / 2 then x.lastIdx + half else x.lastIdx
    let recvIdx := x.sendIdx + half
    ({ x with recvIdx, lastIdx }, sumCnts cnts x.sendIdx recvIdx, sumCnts cnts recvIdx lastIdx)
  else
    let recvIdx := x.sendIdx - half
    ({ x with recvIdx }, sumCnts cnts x.sendIdx x.lastIdx, sumCnts cnts recvIdx x.sendIdx)

def syclGatherStep (half : Nat) (x : Windows) (sched : Sched) : Windows × Sched :=
  let newdst := newrank ^^^ x.mask
  let dst := realRank rem newdst
  let newdisps := Parts.sumTo (newCnts count pow2)
  let (x, sendCnt, recvCnt) := syclDoubling pow2 newrank (newCnts count pow2) newdst half x
  let sbuf := recvBuf + newdisps x.sendIdx
  let rbuf := recvBuf + newdisps x.recvIdx
  let sched := ((sched.create (.send sbuf sendCnt dst)).create (.recv rbuf recvCnt dst)).addBarrier
  (doublingNext newrank newdst x, sched)

/-- The allgather: `while (mask > 0)`. -/
def syclGatherLoop : Nat → Nat → Windows → Sched → Sched
  | 0, _, _, sched => sched
  | fuel + 1, half, x, sched =>
    if x.mask > 0 then
      let (x, sched) := syclGatherStep recvBuf count pow2 rem newrank half x sched
      syclGatherLoop fuel (half <<< 1) x sched
    else sched

def syclRabenseifnerMain (sched : Sched) : Sched :=
  let (x, sched) := syclScatterLoop recvBuf tmpBuf count pow2 rem newrank pow2 ⟨1, 0, 0, pow2⟩ sched
  syclGatherLoop recvBuf count pow2 rem newrank pow2 1 { x with mask := x.mask >>> 1 } sched

end

/-- `allreduce_sycl_rabenseifner_blocking`; `none` when it returns with `done = false`. The device buffer holds `count`
elements. -/
def allreduceSyclRabenseifnerBlocking (sendBuf recvBuf : CclBuffer) (count : Nat) (comm : CclComm) (rank : Nat)
    (sched : Sched) : Option Sched := do
  let pow2 := comm.pof2
  if count < pow2 then none
  let (tmpBuf, sched) ← sched.allocBuffer count
  let sched := copyIn sendBuf recvBuf count sched
  let rem := comm.size - pow2
  let (sched, newrank) := foldIn recvBuf tmpBuf count rem rank sched
  let sched := newrank.elim sched fun newrank => syclRabenseifnerMain recvBuf tmpBuf count pow2 rem newrank sched
  if rank < 2 * rem then return (foldOut recvBuf count rank sched).addBarrier
  else return sched

/-! ## The rounds -/

namespace AllreduceCall

variable (A : AllreduceCall)

/-- The blocks of the ranks that take part. -/
abbrev newBlocks : Nat → Nat := newCnts A.count (2 ^ A.log)

/-- The reduce-scatter. -/
def syclHalving : Halving A.n where
  log := A.log
  ranks := foldNumbering A.comm
  cnts := A.newBlocks
  buf := fun _ => A.recvBuf
  tmp := foldTmp
  tmp_ne := fun _ => (A.recvBuf_ne_alloc 0 0).symm

/-- The rounds between folding in and folding out. -/
def syclRabenseifnerRounds : List SchedRound :=
  (range A.log).flatMap A.syclHalving.rounds ++ (range A.log).reverse.map (A.windowRound A.newBlocks true)

variable {A} {k v fuel i : Nat}

/-! ## The function makes the rounds -/

theorem syclScatterStep_eq (hk : k < A.log) (hv : v < 2 ^ A.log) (s : Sched) :
    ∃ s', syclScatterStep A.recvBuf foldTmp A.count (2 ^ A.log) A.rem v (halvingHead A.log v k) s =
        (halvingHead A.log v (k + 1), s') ∧
      s'.entries = s.entries ++ (A.syclHalving.rounds k).flatMap (· (A.real v)) := by
  obtain ⟨lastIdx, hidx, hnext⟩ := halving_table A.newBlocks hk v
  unfold syclScatterStep
  rw [show (halvingHead A.log v k).mask = 2 ^ k from rfl]
  dsimp only
  rw [hidx]
  rw [hnext]
  refine ⟨_, rfl, ?_⟩
  rw [show A.real v = A.syclHalving.ranks.real v from rfl, A.syclHalving.rounds_real hv]
  simp only [Sched.addBarrier_create_entries, Sched.create_entries, append_assoc]
  rfl

theorem syclScatterLoop_eq (hv : v < 2 ^ A.log) (s : Sched) :
    ∃ s', syclScatterLoop A.recvBuf foldTmp A.count (2 ^ A.log) A.rem v (2 ^ A.log) ⟨1, 0, 0, 2 ^ A.log⟩ s =
        (halvingHead A.log v A.log, s') ∧
      s'.entries = s.entries ++ ((range A.log).flatMap A.syclHalving.rounds).flatMap (· (A.real v)) := by
  rw [← halvingHead_zero A.log v, flatMap_assoc]
  refine loop_entries (I := fun _ _ => True) _ Prod.mk _ (fun _ _ => rfl) (fun _ _ => if_neg (lt_irrefl _))
    (fun k hk fuel s _ => ?_) Nat.lt_two_pow_self.le trivial
  obtain ⟨s', hstep, hs'⟩ := syclScatterStep_eq hk hv s
  refine ⟨s', ?_, trivial, hs'⟩
  rw [syclScatterLoop, if_pos (halvingHead_mask_lt hk), hstep]

theorem syclGatherStep_eq (hk : k < A.log) (hv : v < 2 ^ A.log) (recvIdx : Nat) (s : Sched) :
    ∃ x s', syclGatherStep A.recvBuf A.count (2 ^ A.log) A.rem v (2 ^ (A.log - (k + 1)))
        (doublingHead A.log v k recvIdx) s = (x, s') ∧
      x = ⟨2 ^ k >>> 1, windowStart A.log k v, windowStart A.log (k + 1) (v ^^^ 2 ^ k),
        windowStart A.log k v + 2 ^ (A.log - k)⟩ ∧
      s'.entries = s.entries ++ A.windowRound A.newBlocks true k (A.real v) := by
  obtain ⟨lastIdx, hidx, hnext⟩ := doubling_table A.newBlocks hk v recvIdx
  have hhalf : ∀ x : Windows, x.mask = 2 ^ k →
      syclDoubling (2 ^ A.log) v A.newBlocks (v ^^^ 2 ^ k) (2 ^ (A.log - (k + 1))) x =
        doubling A.newBlocks (2 ^ A.log) v (v ^^^ 2 ^ k) x := by
    intro x hx
    rw [syclDoubling, doubling, hx, two_pow_div_mask hk]
  unfold syclGatherStep
  rw [show (doublingHead A.log v k recvIdx).mask = 2 ^ k from rfl]
  dsimp only
  rw [hhalf _ rfl, hidx]
  refine ⟨_, _, rfl, hnext, ?_⟩
  rw [Sched.addBarrier_create_entries, Sched.create_entries, windowRound, ofKinds, swapKinds, onFolded_real _ hv]
  simp [Swap.kinds, windowSwap, tableStart]

theorem syclGatherLoop_eq (hv : v < 2 ^ A.log) (hk : k < A.log) (hfuel : k < fuel) (recvIdx : Nat) (s : Sched) :
    (syclGatherLoop A.recvBuf A.count (2 ^ A.log) A.rem v fuel (2 ^ (A.log - (k + 1)))
        (doublingHead A.log v k recvIdx) s).entries =
      s.entries ++ ((range (k + 1)).reverse.map (A.windowRound A.newBlocks true)).flatMap (· (A.real v)) := by
  rw [flatMap_map]
  refine gather_entries (X := Nat × Windows)
    (fun fuel x s => syclGatherLoop A.recvBuf A.count (2 ^ A.log) A.rem v fuel x.1 x.2 s)
    (fun x => x.2.mask) (fun k idx => (2 ^ (A.log - (k + 1)), doublingHead A.log v k idx))
    (fun _ _ => rfl) (fun fuel x s hx => ?_) (fun k hk fuel recvIdx s => ?_) hk hfuel recvIdx s
  · rw [syclGatherLoop, if_neg (by rw [hx]; exact Nat.lt_irrefl 0)]
  · obtain ⟨x, s', hstep, hx, hs'⟩ := syclGatherStep_eq hk hv recvIdx s
    refine ⟨(2 ^ (A.log - (k + 1)) <<< 1, x), s', ?_, hs', ?_, ?_⟩
    · rw [syclGatherLoop, if_pos (show (doublingHead A.log v k recvIdx).mask > 0 from Nat.two_pow_pos k), hstep]
    · rintro rfl
      rw [hx]
      rfl
    · rintro j rfl
      have hhalf : 2 ^ (A.log - (j + 1 + 1)) <<< 1 = 2 ^ (A.log - (j + 1)) := by
        rw [Nat.shiftLeft_eq, ← Nat.pow_add, show A.log - (j + 1 + 1) + 1 = A.log - (j + 1) by omega]
      exact ⟨_, Prod.ext hhalf (hx.trans (doublingHead_eq hk v _))⟩

theorem syclRabenseifnerMain_entries (hv : v < 2 ^ A.log) (s : Sched) :
    (syclRabenseifnerMain A.recvBuf foldTmp A.count (2 ^ A.log) A.rem v s).entries =
      s.entries ++ A.syclRabenseifnerRounds.flatMap (· (A.real v)) := by
  obtain ⟨s₁, hloop, hs₁⟩ := syclScatterLoop_eq hv s
  unfold syclRabenseifnerMain
  rw [hloop, syclRabenseifnerRounds, flatMap_append, ← append_assoc, ← hs₁]
  dsimp only
  rcases Nat.eq_zero_or_pos A.log with hzero | hpos
  · rw [hzero]
    simp [syclGatherLoop, halvingHead]
  · obtain ⟨k, hk⟩ : ∃ k, A.log = k + 1 := ⟨A.log - 1, by omega⟩
    have htop := halvingHead_top v k
    rw [← hk] at htop
    have hhalf : 2 ^ (A.log - (k + 1)) = 1 := by rw [hk, Nat.sub_self, Nat.pow_zero]
    have hgather := syclGatherLoop_eq hv (show k < A.log by omega)
      (show k < 2 ^ A.log from Nat.lt_of_lt_of_le (by omega) Nat.lt_two_pow_self.le)
      (windowStart A.log A.log v) s₁
    rw [hhalf] at hgather
    rw [htop, hgather, hk]

variable (A) in
theorem syclRabenseifner_mainRounds : A.MainRounds (fun tmpBuf newrank sched => some
      (syclRabenseifnerMain A.recvBuf tmpBuf A.count A.comm.pof2 (A.comm.size - A.comm.pof2) newrank sched))
    A.syclRabenseifnerRounds := by
  rw [A.pof2_eq, A.size_sub_pof2]
  refine ⟨fun v hv s _ _ => ⟨_, rfl, syclRabenseifnerMain_entries hv s⟩, fun r hr => ?_, fun hone => ?_,
    fun R hR => ?_⟩
  · rw [syclRabenseifnerRounds, flatMap_append, flatMap_assoc]
    refine append_eq_nil_iff.mpr ⟨flatMap_eq_nil_iff.mpr fun k _ => A.syclHalving.rounds_idle hr,
      flatMap_eq_nil_iff.mpr fun R hR => ?_⟩
    obtain ⟨k, -, rfl⟩ := mem_map.mp hR
    rw [windowRound, ofKinds, swapKinds, onFolded_of_newRank _ hr, Option.elim_none, entriesOf_nil]
  · rw [syclRabenseifnerRounds, A.log_of_one hone]
    rfl
  · rcases mem_append.mp hR with hR | hR
    · obtain ⟨k, hk, hR⟩ := mem_flatMap.mp hR
      exact A.syclHalving.rounds_good (mem_range.mp hk) hR
    · obtain ⟨k, hk, rfl⟩ := mem_map.mp hR
      exact ⟨_, (windowSwap_good _ (mem_range.mp (mem_reverse.mp hk))).kindsGood true, rfl⟩

theorem allreduceSyclRabenseifnerBlocking_eq (hn : 2 ≤ A.n) (hle : A.comm.pof2 ≤ A.count) (sendBuf : CclBuffer)
    (rank : Nat) (sched : Sched) : allreduceSyclRabenseifnerBlocking sendBuf A.recvBuf A.count A.comm rank sched =
      buildFolded (fun tmpBuf newrank sched => some
        (syclRabenseifnerMain A.recvBuf tmpBuf A.count A.comm.pof2 (A.comm.size - A.comm.pof2) newrank sched)) true
        sendBuf A.recvBuf A.count A.comm rank sched := by
  have hpos : 0 < A.count := Nat.lt_of_lt_of_le (by rw [A.pof2_eq]; exact Nat.two_pow_pos _) hle
  have hone : A.comm.size ≠ 1 := Nat.ne_of_gt hn
  simp only [allreduceSyclRabenseifnerBlocking, buildFolded, if_neg hle.not_gt, if_neg hpos.ne',
    if_neg hone, Sched.allocBuffer_of_pos _ hpos, Option.bind_eq_bind, Option.bind_some]
  cases (foldIn A.recvBuf _ A.count (A.comm.size - A.comm.pof2) rank _).2 <;> rfl

/-! ## What the rounds compute -/

/-- **The rounds reduce over the ranks that take part.** -/
theorem syclRabenseifnerRounds_reduce {α : Type} (op : α → α → α) [Std.Commutative op] [Std.Associative op] :
    A.ReducesFolded A.syclRabenseifnerRounds op := by
  refine scatter_gather_reduces A.newBlocks op true (fun v => ?_) fun k hk σ v hv i hlo hhi =>
    A.syclHalving.rounds_exec op hk σ hv hlo hhi
  rw [tableEnd_zero]
  exact Parts.sumTo_evenSize_top A.count (Nat.two_pow_pos A.log)

end AllreduceCall

/-! ## The contract -/

/-- **The blocking SYCL allreduces are correct**: with two ranks or more, in place or not, every run completes and leaves
the reduction of all data at every rank, and every send has its receive. Rabenseifner's needs a block for each of the
power of two of ranks, the ring takes any count. -/
theorem allreduce_sycl_correct {α : Type} (op : α → α → α) [Std.Commutative op] [Std.Associative op]
    (comm : CclComm) (hn : 2 ≤ comm.size) {sendBuf : Nat → CclBuffer} {recvBuf : CclBuffer} {count : Nat}
    (hbufs : ∀ r < comm.size, CollBufs (sendBuf r) recvBuf count) (check : Bool) (tag : Nat)
    (eager : Nat → Nat → Bool) (mem : Nat → Mem α) : (comm.pof2 ≤ count → ∃ sched : Nat → Sched,
      (∀ r < comm.size, allreduceSyclRabenseifnerBlocking (sendBuf r) recvBuf count comm r (.new 0) =
        some (sched r)) ∧
      ((schedNet op comm.size tag eager sched).Completes mem fun s => ∀ r < comm.size, ∀ i < count,
        s.mem r (recvBuf.at i) = reduceRange op comm.size fun q => mem q ((sendBuf q).at i)) ∧
      MessagesMatch comm.size sched) ∧
    ∃ sched : Nat → Sched,
      (∀ r < comm.size, allreduceRingBlocking check (sendBuf r) recvBuf count comm r (.new 0) = some (sched r)) ∧
      ((schedNet op comm.size tag eager sched).Completes mem fun s => ∀ r < comm.size, ∀ i < count,
        s.mem r (recvBuf.at i) = reduceRange op comm.size fun q => mem q ((sendBuf q).at i)) ∧
      MessagesMatch comm.size sched := by
  let A : AllreduceCall := ⟨comm, sendBuf, recvBuf, count, hbufs⟩
  constructor
  · intro hle
    have hpos : 0 < count := Nat.lt_of_lt_of_le (by rw [comm.pof2_eq]; exact Nat.two_pow_pos _) hle
    obtain ⟨sched, hbuild, hrun⟩ := A.syclRabenseifner_mainRounds.contract op hpos true
      (AllreduceCall.syclRabenseifnerRounds_reduce op) tag eager mem
    exact ⟨sched, fun r hr =>
      (AllreduceCall.allreduceSyclRabenseifnerBlocking_eq (A := A) hn hle _ _ _).trans (hbuild r hr), hrun⟩
  · have hgood : ∀ R ∈ A.allRounds, R.IsGood comm.size := by
      intro R hR
      obtain ⟨kinds, hk, rfl⟩ := AllreduceCall.allRounds_good hR
      exact hk.isGood true
    have hclosed : ∀ R ∈ A.allRounds, R.Closed := by
      intro R hR
      obtain ⟨kinds, -, rfl⟩ := AllreduceCall.allRounds_good hR
      exact closed_ofKinds kinds
    obtain ⟨sched, hbuild, hrun, hmatch⟩ := contract_of_rounds
      (fun r hr => AllreduceCall.allreduceRingBlocking_entries (A := A) check hn hr) hgood
      (raceFree_of_closed hgood hclosed op tag) eager mem
    refine ⟨sched, hbuild, hrun.imp fun s hs r hr i hi => ?_, hmatch⟩
    rw [hs r]
    exact AllreduceCall.allRounds_exec (A := A) op hn mem hr hi

/-- Three ranks, the last of them in place, that have `q + 1` in each of five elements: with either algorithm all end
with `6`. -/
theorem allreduce_sycl_three :
    (∃ sched : Nat → Sched,
      (∀ r < 3, allreduceSyclRabenseifnerBlocking (if r < 2 then ⟨.user 0, 0⟩ else ⟨.user 1, 0⟩) ⟨.user 1, 0⟩ 5
        ⟨3, by decide, by decide⟩ r (.new 0) = some (sched r)) ∧
      (schedNet (· + ·) 3 0 (fun _ _ => false) sched).Completes (fun q _ => q + 1) fun s =>
        ∀ r < 3, ∀ i < 5, s.mem r (CclBuffer.at ⟨.user 1, 0⟩ i) = 6) ∧
    ∃ sched : Nat → Sched,
      (∀ r < 3, allreduceRingBlocking true (if r < 2 then ⟨.user 0, 0⟩ else ⟨.user 1, 0⟩) ⟨.user 1, 0⟩ 5
        ⟨3, by decide, by decide⟩ r (.new 0) = some (sched r)) ∧
      (schedNet (· + ·) 3 0 (fun _ _ => false) sched).Completes (fun q _ => q + 1) fun s =>
        ∀ r < 3, ∀ i < 5, s.mem r (CclBuffer.at ⟨.user 1, 0⟩ i) = 6 := by
  have h := allreduce_sycl_correct (α := Nat) (· + ·) ⟨3, by decide, by decide⟩ (by decide)
    (fun r _ => collBufs_mixed 2 5 r) true 0 (fun _ _ => false) fun q _ => q + 1
  obtain ⟨sched, hsched, hrun, -⟩ := h.1 (by decide)
  obtain ⟨ring, hring, hrun', -⟩ := h.2
  exact ⟨⟨sched, hsched, hrun⟩, ⟨ring, hring, hrun'⟩⟩

end OneCcl
