import OneCcl.Coll.GatherRanks
import OneCcl.Coll.RootedRanks
import OneCcl.Coll.WindowRounds

/-!
# Rabenseifner's reduce

`ccl_coll_build_rabenseifner_reduce`: folding onto a power of two, a reduce-scatter by recursive halving, and a gather
to the root along a binomial tree. A rank other than the root has no `recv_buf` and allocates one. If the root was
folded out, rank `0` hands its segment over to it before the gather.

The first copy has no barrier: on the host it is done when it is started.

`rabenseifner_reduce_correct` is the contract.
-/

namespace OneCcl

open Async List Reduction SchedRound Sched

/-! ## The builder -/

/-- Folding in: the odd ranks below `2 * rem` send, the even ones receive and reduce. -/
def foldInEven (recvBuf tmpBuf : CclBuffer) (count rem rank : Nat) (sched : Sched) : Sched × Option Nat :=
  if rank < 2 * rem then
    if rank % 2 ≠ 0 then
      ((sched.create (.send recvBuf count (rank - 1))).addBarrier, none)
    else
      let sched := (sched.create (.recv tmpBuf count (rank + 1))).addBarrier
      let sched := (sched.create (.reduceLocal tmpBuf count recvBuf)).addBarrier
      (sched, some (rank / 2))
  else (sched, some (rank - rem))

section

variable (recvBuf tmpBuf : CclBuffer) (count pof2 rem newRank : Nat)

def halvingReduceStep (x : Windows) (sched : Sched) : Windows × Sched :=
  let newDst := newRank ^^^ x.mask
  let dst := evenRank rem newDst
  let (x, sendCnt, recvCnt) := halving (blockCnts count pof2) pof2 newRank newDst x
  let sched := sched.create (.send (recvBuf + blockDisps count pof2 x.sendIdx) sendCnt dst)
  let sched := (sched.create (.recv (tmpBuf + blockDisps count pof2 x.recvIdx) recvCnt dst)).addBarrier
  let sched := (sched.create (.reduceLocal (tmpBuf + blockDisps count pof2 x.recvIdx) recvCnt
    (recvBuf + blockDisps count pof2 x.recvIdx))).addBarrier
  (halvingNext pof2 x, sched)

def halvingReduceLoop : Nat → Windows → Sched → Windows × Sched
  | 0, x, sched => (x, sched)
  | fuel + 1, x, sched =>
    if x.mask < pof2 then
      let (x, sched) := halvingReduceStep recvBuf tmpBuf count pof2 rem newRank x sched
      halvingReduceLoop fuel x sched
    else (x, sched)

/-- The loop that counts the masks below `pof2`. -/
def countMasks (pof2 : Nat) : Nat → Nat → Nat → Nat × Nat
  | 0, mask, j => (mask, j)
  | fuel + 1, mask, j => if mask < pof2 then countMasks pof2 fuel (mask <<< 1) (j + 1) else (mask, j)

variable (localRoot newroot : Nat)

/-- The gather. The index `j` of the mask is not used once it is `-1`. -/
def gatherLoop : Nat → Nat → Windows → Sched → Sched
  | 0, _, _, sched => sched
  | fuel + 1, j, x, sched =>
    if x.mask > 0 then
      let newDst := newRank ^^^ x.mask
      let dst := evenRank rem newDst
      let dst := if newDst = 0 ∧ localRoot < 2 * rem ∧ localRoot % 2 ≠ 0 then localRoot else dst
      let newdstTreeRoot := newDst >>> j <<< j
      let newrootTreeRoot := newroot >>> j <<< j
      let (x, sendCnt, recvCnt) := doubling (blockCnts count pof2) pof2 newRank newDst x
      if newdstTreeRoot = newrootTreeRoot then
        (sched.create (.send (recvBuf + blockDisps count pof2 x.sendIdx) sendCnt dst)).addBarrier
      else
        let sched := (sched.create (.recv (recvBuf + blockDisps count pof2 x.recvIdx) recvCnt dst)).addBarrier
        gatherLoop fuel (j - 1) (doublingNext newRank newDst x) sched
    else sched

end

/-- The step before the gather, if the root was folded out: rank `0` hands over to it. Returns the new rank and
`newroot`. -/
def replaceRoot (recvBuf : CclBuffer) (count pof2 rem localRoot rank : Nat) (newRank : Option Nat) (x : Windows)
    (sched : Sched) : Windows × Sched × Option Nat × Nat :=
  if localRoot < 2 * rem then
    if localRoot % 2 ≠ 0 then
      if rank = localRoot then
        let sched := (sched.create (.recv recvBuf (blockCnts count pof2 0) 0)).addBarrier
        ({ x with sendIdx := 0, lastIdx := 2 }, sched, some 0, 0)
      else if newRank = some 0 then
        (x, (sched.create (.send recvBuf (blockCnts count pof2 0) localRoot)).addBarrier, none, 0)
      else (x, sched, newRank, 0)
    else (x, sched, newRank, localRoot / 2)
  else (x, sched, newRank, localRoot - rem)

def rabenseifnerReduceMain (sendBuf recvBuf tmpBuf : CclBuffer) (count pof2 rem localRoot rank : Nat)
    (sched : Sched) : Sched :=
  let sched :=
    if rank ≠ localRoot ∨ sendBuf ≠ recvBuf then sched.create (.copy sendBuf recvBuf count) else sched
  let (sched, newRank) := foldInEven recvBuf tmpBuf count rem rank sched
  let (x, sched) := newRank.elim (⟨1, 0, 0, 0⟩, sched) fun newRank =>
    halvingReduceLoop recvBuf tmpBuf count pof2 rem newRank pof2 ⟨1, 0, 0, pof2⟩ sched
  let (x, sched, newRank, newroot) := replaceRoot recvBuf count pof2 rem localRoot rank newRank x sched
  newRank.elim sched fun newRank =>
    let (mask, j) := countMasks pof2 pof2 1 0
    gatherLoop recvBuf count pof2 rem newRank localRoot newroot pof2 (j - 1) { x with mask := mask >>> 1 } sched

/-- `ccl_coll_build_rabenseifner_reduce`. -/
def cclCollBuildRabenseifnerReduce (sendBuf recvBuf : CclBuffer) (count root : Nat) (comm : CclComm) (rank : Nat)
    (sched : Sched) : Option Sched := do
  if count = 0 then return sched
  let localRoot := root
  let (tmpBuf, sched) ← sched.allocBuffer count
  let pof2 := comm.pof2
  if ¬ count ≥ pof2 then none
  let rem := comm.size - pof2
  let (recvBuf, sched) ← if rank ≠ localRoot then sched.allocBuffer count else some (recvBuf, sched)
  return rabenseifnerReduceMain sendBuf recvBuf tmpBuf count pof2 rem localRoot rank sched

/-! ## The rounds -/

def reduceTmp : CclBuffer := ⟨.alloc 0 0, 0⟩

/-- The arguments of a reduce, as all ranks make it. -/
structure ReduceCall extends Rooted where
  sendBuf : Nat → CclBuffer
  recvBuf : CclBuffer
  count : Nat
  recv_user : ∃ i, recvBuf.src = .user i

namespace ReduceCall

section

variable (A : ReduceCall)

abbrev log : Nat := A.comm.log

abbrev rem : Nat := A.comm.rem

/-- The blocks of the ranks that take part. -/
abbrev blocks : Nat → Nat := blockCnts A.count (2 ^ A.log)

abbrev newRoot : Nat := OneCcl.newRoot A.rem A.root

abbrev gatherNumbering : Numbering A.n (2 ^ A.log) := OneCcl.gatherNumbering A.comm A.root_lt

/-- The buffer a rank reduces into: only the root has the caller's. -/
def buf (r : Nat) : CclBuffer := if r ≠ A.root then ⟨.alloc 0 1, 0⟩ else A.recvBuf

theorem reduceTmp_ne (r : Nat) : reduceTmp.src ≠ (A.buf r).src := by
  unfold buf
  split
  · exact show BufSrc.alloc 0 0 ≠ .alloc 0 1 by decide
  · obtain ⟨i, hi⟩ := A.recv_user
    rw [hi]
    exact nofun

/-- Element `i` of the buffer rank `r` reduces into. -/
def val {α : Type} (σ : Nat → Mem α) (i r : Nat) : α := σ r ((A.buf r).at i)

def reduceCopyKinds (r : Nat) : List EntryKind :=
  if (r ≠ A.root ∨ A.sendBuf r ≠ A.buf r) ∧ r < A.n then
    [.copy (A.sendBuf r) (A.buf r) A.count]
  else []

def foldInEvenKinds (r : Nat) : List EntryKind :=
  if r < 2 * A.rem then
    if r % 2 ≠ 0 then [.send (A.buf r) A.count (r - 1)] else [.recv reduceTmp A.count (r + 1)]
  else []

def foldInEvenReduceKinds (r : Nat) : List EntryKind :=
  if r < 2 * A.rem ∧ r % 2 = 0 then [.reduceLocal reduceTmp A.count (A.buf r)] else []

/-- The reduce-scatter. -/
def reduceHalving : Halving A.n where
  log := A.log
  ranks := evenNumbering A.comm
  cnts := A.blocks
  buf := A.buf
  tmp := reduceTmp
  tmp_ne := A.reduceTmp_ne

/-- The hand-over to a root that was folded out. -/
def replaceRootKinds (r : Nat) : List EntryKind :=
  if RootOut A.rem A.root then
    if r = A.root then [.recv A.recvBuf (tableCnt A.blocks A.log A.log 0) 0]
    else if r = 0 then [.send ⟨.alloc 0 1, 0⟩ (tableCnt A.blocks A.log A.log 0) A.root] else []
  else []

/-- What new rank `v` does in step `k` of the gather, if it is still there. -/
def gatherKind (k v : Nat) : Option EntryKind :=
  let buf := A.buf (gatherRank A.rem A.root v)
  let dst := gatherRank A.rem A.root (v ^^^ 2 ^ k)
  if v / 2 ^ (k + 1) = A.newRoot / 2 ^ (k + 1) then
    if v / 2 ^ k = A.newRoot / 2 ^ k then
      some (.recv (buf + tableStart A.blocks A.log (k + 1) (v ^^^ 2 ^ k))
        (tableCnt A.blocks A.log (k + 1) (v ^^^ 2 ^ k)) dst)
    else some (.send (buf + tableStart A.blocks A.log (k + 1) v) (tableCnt A.blocks A.log (k + 1) v) dst)
  else none

/-- Step `k` of the gather. -/
def gatherRound (k : Nat) : SchedRound :=
  .ofKinds true fun r => ((A.gatherNumbering.on (A.gatherKind k) r).join).toList

def reduceRounds : List SchedRound :=
  [.ofKinds false A.reduceCopyKinds] ++
  [.ofKinds true A.foldInEvenKinds, .ofKinds true A.foldInEvenReduceKinds] ++
  (range A.log).flatMap A.reduceHalving.rounds ++
  [.ofKinds true A.replaceRootKinds] ++
  (range A.log).reverse.map A.gatherRound

end

variable {A : ReduceCall}

/-! ## The rounds are good -/

theorem buf_root : A.buf A.root = A.recvBuf := if_neg (not_not_intro rfl)

theorem isLocal_reduceCopyKinds (r : Nat) {k : EntryKind} (hk : k ∈ A.reduceCopyKinds r) : k.isLocal = true := by
  unfold reduceCopyKinds at hk
  obtain ⟨-, hk⟩ := mem_ite_nil_right.mp hk
  rw [mem_singleton.mp hk]
  rfl

theorem reduceCopyKinds_good : KindsGood A.reduceCopyKinds A.n := kindsGood_ite (fun _ hr => hr.2) fun _ => rfl

variable {r k v fuel rank : Nat}

theorem reduceCopy_exec {α : Type} (op : α → α → α) (b : Bool) (σ : Nat → Mem α) {i : Nat}
    (hr : r < A.n) (hi : i < A.count) :
    A.val (exec op (.ofKinds b A.reduceCopyKinds) σ) i r = σ r ((A.sendBuf r).at i) := by
  unfold val
  by_cases h : r ≠ A.root ∨ A.sendBuf r ≠ A.buf r
  · rw [exec_copy op b σ (if_pos ⟨h, hr⟩), compCopy_at hi]
  · have heq : A.sendBuf r = A.buf r := by
      by_contra hc
      exact h (.inr hc)
    rw [exec_idle op b σ (if_neg fun hc => h hc.1), heq]

variable (A) in
theorem two_mul_rem_le : 2 * A.rem ≤ A.n := by
  have hn : A.n = 2 ^ A.log + A.rem := A.comm.size_eq
  have hrem : A.rem < 2 ^ A.log := A.comm.rem_lt
  omega

theorem foldInEvenKinds_good : KindsGood A.foldInEvenKinds A.n := by
  have hrem := A.two_mul_rem_le
  exact kindsGood_pairs (fun r hr => by omega) (fun _ => rfl) fun s d => by omega

theorem foldInEvenReduceKinds_good : KindsGood A.foldInEvenReduceKinds A.n := by
  have hrem := A.two_mul_rem_le
  exact kindsGood_ite (fun r hr => by omega) fun _ => rfl

theorem replaceRootKinds_good : KindsGood A.replaceRootKinds A.n := by
  have hlt : A.root < A.n := A.root_lt
  have hne : RootOut A.rem A.root → A.root ≠ 0 := fun h h0 => h.2 (by rw [h0])
  have heq : A.replaceRootKinds = fun r => if RootOut A.rem A.root ∧ (r = A.root ∨ r = 0) then
      if r ≠ A.root then [.send ⟨.alloc 0 1, 0⟩ (tableCnt A.blocks A.log A.log 0) A.root]
      else [.recv A.recvBuf (tableCnt A.blocks A.log A.log 0) 0] else [] := by
    funext r
    unfold replaceRootKinds
    split_ifs <;> simp_all
  rw [heq]
  exact kindsGood_pairs (fun r hr => by omega) (fun _ => rfl) fun s d => by
    constructor
    · rintro ⟨⟨h, h1⟩, h2, h3⟩
      exact ⟨⟨h, .inl h3⟩, not_not.mpr h3, h1.resolve_left h2⟩
    · rintro ⟨⟨h, -⟩, h1, h2⟩
      exact ⟨⟨h, .inr h2⟩, h2 ▸ (hne h).symm, not_not.mp h1⟩

theorem gatherKind_recv (h : v / 2 ^ k = A.newRoot / 2 ^ k) : A.gatherKind k v =
      some (.recv (A.buf (gatherRank A.rem A.root v) + tableStart A.blocks A.log (k + 1) (v ^^^ 2 ^ k))
        (tableCnt A.blocks A.log (k + 1) (v ^^^ 2 ^ k)) (gatherRank A.rem A.root (v ^^^ 2 ^ k))) := by
  have hup : v / 2 ^ (k + 1) = A.newRoot / 2 ^ (k + 1) := by
    rw [Nat.pow_succ, ← Nat.div_div_eq_div_mul, ← Nat.div_div_eq_div_mul, h]
  unfold gatherKind
  rw [if_pos hup, if_pos h]

theorem gatherKind_send (hup : v / 2 ^ (k + 1) = A.newRoot / 2 ^ (k + 1))
    (h : ¬ v / 2 ^ k = A.newRoot / 2 ^ k) : A.gatherKind k v =
      some (.send (A.buf (gatherRank A.rem A.root v) + tableStart A.blocks A.log (k + 1) v)
        (tableCnt A.blocks A.log (k + 1) v) (gatherRank A.rem A.root (v ^^^ 2 ^ k))) := by
  unfold gatherKind
  rw [if_pos hup, if_neg h]

theorem gatherKind_gone (h : ¬ v / 2 ^ (k + 1) = A.newRoot / 2 ^ (k + 1)) : A.gatherKind k v = none := if_neg h

theorem mem_gatherKind {e : EntryKind} (h : e ∈ A.gatherKind k v) :
    v / 2 ^ (k + 1) = A.newRoot / 2 ^ (k + 1) := by
  by_contra hc
  rw [gatherKind_gone hc] at h
  cases h

variable (A) in
theorem gatherRound_good (hk : k < A.log) :
    KindsGood (fun r => ((A.gatherNumbering.on (A.gatherKind k) r).join).toList) A.n := by
  have hpart : ∀ v, v / 2 ^ (k + 1) = A.newRoot / 2 ^ (k + 1) →
      (v ^^^ 2 ^ k) / 2 ^ (k + 1) = A.newRoot / 2 ^ (k + 1) := fun v h => by rw [xor_two_pow_div, h]
  refine A.gatherNumbering.kindsGood_single_on (fun v hv e he => ?_) (fun v hv e he d c hs => ?_)
    fun v hv e he s c hr => ?_ <;> have hup := mem_gatherKind he <;> by_cases h : v / 2 ^ k = A.newRoot / 2 ^ k
  · rw [gatherKind_recv h] at he
    cases he
    exact .inr ⟨_, rfl⟩
  · rw [gatherKind_send hup h] at he
    cases he
    exact .inl ⟨_, rfl⟩
  · rw [gatherKind_recv h] at he
    cases he
    cases hs
  · rw [gatherKind_send hup h] at he
    cases he
    cases hs
    refine ⟨v ^^^ 2 ^ k, xor_two_pow_lt hv hk, rfl, _, gatherKind_recv ((gather_active hup).mpr h), ?_⟩
    rw [Nat.xor_xor_cancel_right]
    rfl
  · rw [gatherKind_recv h] at he
    cases he
    cases hr
    refine ⟨v ^^^ 2 ^ k, xor_two_pow_lt hv hk, rfl, _,
      gatherKind_send (hpart v hup) (fun hc => (gather_active hup).mp hc h), ?_⟩
    rw [Nat.xor_xor_cancel_right]
    rfl
  · rw [gatherKind_send hup h] at he
    cases he
    cases hr

theorem reduceRounds_good {R : SchedRound} (hR : R ∈ A.reduceRounds) : R.IsGood A.n ∧ R.Closed := by
  have closed : ∀ {kinds}, KindsGood kinds A.n → (ofKinds true kinds).IsGood A.n ∧ (ofKinds true kinds).Closed :=
    fun h => ⟨h.isGood true, closed_ofKinds _⟩
  simp only [reduceRounds, mem_append, mem_cons, not_mem_nil, or_false] at hR
  rcases hR with (((rfl | rfl | rfl) | hR) | rfl) | hR
  · exact ⟨reduceCopyKinds_good.isGood false, closed_of_local (fun r k => isLocal_reduceCopyKinds r) false⟩
  · exact closed foldInEvenKinds_good
  · exact closed foldInEvenReduceKinds_good
  · obtain ⟨k, hk, hR⟩ := mem_flatMap.mp hR
    obtain ⟨kinds, hgood, rfl⟩ := A.reduceHalving.rounds_good (mem_range.mp hk) hR
    exact closed hgood
  · exact closed replaceRootKinds_good
  · obtain ⟨k, hk, rfl⟩ := mem_map.mp hR
    exact closed (A.gatherRound_good (mem_range.mp (mem_reverse.mp hk)))

/-! ## The builder makes the rounds -/

theorem foldInEven_snd (buf tmpBuf : CclBuffer) (count rem rank : Nat) (sched : Sched) :
    (foldInEven buf tmpBuf count rem rank sched).2 = evenNew rem rank := by
  unfold foldInEven evenNew
  split
  · split <;> rfl
  · rfl

variable (A) in
theorem foldInEven_entries (rank : Nat) (sched : Sched) :
    (foldInEven (A.buf rank) reduceTmp A.count A.rem rank sched).1.entries = sched.entries ++
      (entriesOf true (A.foldInEvenKinds rank) ++ entriesOf true (A.foldInEvenReduceKinds rank)) := by
  unfold foldInEven foldInEvenKinds foldInEvenReduceKinds
  by_cases h : rank < 2 * A.rem
  · rw [if_pos h, if_pos h]
    by_cases h2 : rank % 2 ≠ 0
    · rw [if_pos h2, if_pos h2, if_neg (fun hc => h2 hc.2)]
      simp only [addBarrier_create_entries, entriesOf_singleton, entriesOf_nil, append_nil]
    · rw [if_neg h2, if_neg h2, if_pos ⟨h, by omega⟩]
      simp only [addBarrier_create_entries, entriesOf_singleton, append_assoc]
  · rw [if_neg h, if_neg h, if_neg (fun hc => h hc.1)]
    simp only [entriesOf_nil, append_nil]

theorem reduceHalving_idle (h : evenNew A.rem r = none) :
    ((range A.log).flatMap A.reduceHalving.rounds).flatMap (· r) = [] := by
  rw [flatMap_assoc]
  exact flatMap_eq_nil_iff.mpr fun k _ => A.reduceHalving.rounds_idle h

variable (A) in
theorem halvingReduceStep_eq (hk : k < A.log) (hv : v < 2 ^ A.log) (s : Sched) :
    ∃ s', halvingReduceStep (A.buf (evenRank A.rem v)) reduceTmp A.count (2 ^ A.log) A.rem v
        (halvingHead A.log v k) s = (halvingHead A.log v (k + 1), s') ∧
      s'.entries = s.entries ++ (A.reduceHalving.rounds k).flatMap (· (evenRank A.rem v)) := by
  obtain ⟨lastIdx, hidx, hnext⟩ := halving_table A.blocks hk v
  unfold halvingReduceStep
  rw [show (halvingHead A.log v k).mask = 2 ^ k from rfl]
  dsimp only
  rw [hidx]
  refine ⟨_, Prod.ext hnext rfl, ?_⟩
  rw [show evenRank A.rem v = A.reduceHalving.ranks.real v from rfl, A.reduceHalving.rounds_real hv]
  simp only [addBarrier_create_entries, create_entries, append_assoc, blockDisps_eq]
  rfl

variable (A) in
theorem halvingReduceLoop_eq (hv : v < 2 ^ A.log) (s : Sched) :
    ∃ s', halvingReduceLoop (A.buf (evenRank A.rem v)) reduceTmp A.count (2 ^ A.log) A.rem v
        (2 ^ A.log) ⟨1, 0, 0, 2 ^ A.log⟩ s = (halvingHead A.log v A.log, s') ∧
      s'.entries = s.entries ++
        ((range A.log).flatMap A.reduceHalving.rounds).flatMap (· (evenRank A.rem v)) := by
  rw [← halvingHead_zero A.log v, flatMap_assoc]
  refine loop_entries (I := fun _ _ => True) _ Prod.mk _ (fun _ _ => rfl) (fun _ _ => if_neg (lt_irrefl _))
    (fun k hk fuel s _ => ?_) Nat.lt_two_pow_self.le trivial
  obtain ⟨s', hstep, hs'⟩ := A.halvingReduceStep_eq hk hv s
  refine ⟨s', ?_, trivial, hs'⟩
  rw [halvingReduceLoop, if_pos (halvingHead_mask_lt hk), hstep]

theorem countMasks_eq {K : Nat} (hk : k ≤ K) (fuel : Nat) (hfuel : K - k ≤ fuel) :
    countMasks (2 ^ K) fuel (2 ^ k) k = (2 ^ K, K) := by
  induction fuel generalizing k with
  | zero =>
    obtain rfl : k = K := by omega
    rfl
  | succ fuel ih =>
    unfold countMasks
    rcases hk.lt_or_eq with hlt | rfl
    · rw [if_pos (Nat.pow_lt_pow_right (by decide) hlt), Nat.shiftLeft_eq, Nat.pow_one, ← Nat.pow_succ,
        ih hlt (by omega)]
    · rw [if_neg (lt_irrefl _)]

theorem gatherRound_eq (hv : v < 2 ^ A.log) :
    A.gatherRound k (gatherRank A.rem A.root v) = entriesOf true (A.gatherKind k v).toList := by
  have hon := A.gatherNumbering.on_real (A.gatherKind k) hv
  show entriesOf true (((A.gatherNumbering.on _ _).join).toList) = _
  rw [show gatherRank A.rem A.root v = A.gatherNumbering.real v from rfl, hon]
  rfl

theorem gatherRound_gone (hv : v < 2 ^ A.log) (h : ¬ v / 2 ^ k = A.newRoot / 2 ^ k) :
    ((range k).reverse.map A.gatherRound).flatMap (· (gatherRank A.rem A.root v)) = [] := by
  refine flatMap_eq_nil_iff.mpr fun R hR => ?_
  obtain ⟨j, hj, rfl⟩ := mem_map.mp hR
  have hjk : j < k := mem_range.mp (mem_reverse.mp hj)
  have hgone : ¬ v / 2 ^ (j + 1) = A.newRoot / 2 ^ (j + 1) := by
    intro hc
    apply h
    rw [show k = j + 1 + (k - (j + 1)) by omega, Nat.pow_add, ← Nat.div_div_eq_div_mul, ← Nat.div_div_eq_div_mul, hc]
  rw [gatherRound_eq hv, gatherKind_gone hgone]
  rfl

theorem shift_eq_iff (a b k : Nat) : a >>> k <<< k = b >>> k <<< k ↔ a / 2 ^ k = b / 2 ^ k := by
  rw [Nat.shiftLeft_eq, Nat.shiftLeft_eq, Nat.shiftRight_eq_div_pow, Nat.shiftRight_eq_div_pow]
  exact Nat.mul_left_inj ((Nat.two_pow_pos k).ne')

theorem gatherLoop_step (hv : v < 2 ^ A.log) (hk : k < A.log)
    (hup : v / 2 ^ (k + 1) = A.newRoot / 2 ^ (k + 1)) (fuel recvIdx : Nat) (s : Sched) :
    ∃ s' : Sched, s'.entries = s.entries ++ A.gatherRound k (gatherRank A.rem A.root v) ∧
      gatherLoop (A.buf (gatherRank A.rem A.root v)) A.count (2 ^ A.log) A.rem v A.root A.newRoot
          (fuel + 1) k (doublingHead A.log v k recvIdx) s =
        if v / 2 ^ k = A.newRoot / 2 ^ k then
          gatherLoop (A.buf (gatherRank A.rem A.root v)) A.count (2 ^ A.log) A.rem v A.root A.newRoot
            fuel (k - 1) ⟨2 ^ k >>> 1, windowStart A.log k v, windowStart A.log (k + 1) (v ^^^ 2 ^ k),
              windowStart A.log k v + 2 ^ (A.log - k)⟩ s'
        else s' := by
  obtain ⟨lastIdx, hidx, hnext⟩ := doubling_table A.blocks hk v recvIdx
  have hdst : (if v ^^^ 2 ^ k = 0 ∧ A.root < 2 * A.rem ∧ A.root % 2 ≠ 0 then A.root
      else evenRank A.rem (v ^^^ 2 ^ k)) = gatherRank A.rem A.root (v ^^^ 2 ^ k) := rfl
  rw [gatherLoop, if_pos (show (doublingHead A.log v k recvIdx).mask > 0 from Nat.two_pow_pos k),
    show (doublingHead A.log v k recvIdx).mask = 2 ^ k from rfl]
  dsimp only
  rw [hidx, hdst, gatherRound_eq hv]
  rw [hnext]
  by_cases h : v / 2 ^ k = A.newRoot / 2 ^ k
  · have hne : ¬ (v ^^^ 2 ^ k) >>> k <<< k = A.newRoot >>> k <<< k := by
      rw [shift_eq_iff]
      exact fun hc => (gather_active hup).mp hc h
    refine ⟨_, ?_, (if_neg hne).trans (if_pos h).symm⟩
    rw [gatherKind_recv h, addBarrier_create_entries, Option.toList_some, entriesOf_singleton, blockDisps_eq]
    rfl
  · refine ⟨_, ?_, (if_pos ((shift_eq_iff _ _ _).mpr ((gather_active hup).mpr h))).trans (if_neg h).symm⟩
    rw [gatherKind_send hup h, addBarrier_create_entries, Option.toList_some, entriesOf_singleton, blockDisps_eq]
    rfl

theorem gatherLoop_entries (hv : v < 2 ^ A.log) (hk : k < A.log) (hfuel : k < fuel)
    (hup : v / 2 ^ (k + 1) = A.newRoot / 2 ^ (k + 1)) (recvIdx : Nat) (s : Sched) :
    (gatherLoop (A.buf (gatherRank A.rem A.root v)) A.count (2 ^ A.log) A.rem v A.root A.newRoot
        fuel k (doublingHead A.log v k recvIdx) s).entries =
      s.entries ++ ((range (k + 1)).reverse.map A.gatherRound).flatMap (· (gatherRank A.rem A.root v)) := by
  induction k generalizing fuel recvIdx s with
  | zero =>
    obtain ⟨fuel, rfl⟩ : ∃ f, fuel = f + 1 := ⟨fuel - 1, by omega⟩
    obtain ⟨s', hs', hstep⟩ := gatherLoop_step hv hk hup fuel recvIdx s
    have hstop : ∀ f x, x.mask = 0 → gatherLoop (A.buf (gatherRank A.rem A.root v)) A.count
        (2 ^ A.log) A.rem v A.root A.newRoot f (0 - 1) x s' = s' := by
      intro f x hx
      cases f with
      | zero => rfl
      | succ f => rw [gatherLoop, if_neg (by rw [hx]; exact Nat.lt_irrefl 0)]
    rw [hstep, hstop fuel _ rfl, ite_self, hs']
    exact congrArg (_ ++ ·) (append_nil _).symm
  | succ k ih =>
    obtain ⟨fuel, rfl⟩ : ∃ f, fuel = f + 1 := ⟨fuel - 1, by omega⟩
    obtain ⟨s', hs', hstep⟩ := gatherLoop_step hv hk hup fuel recvIdx s
    have hsplit : ∀ r, ((range (k + 1 + 1)).reverse.map A.gatherRound).flatMap (· r) =
        A.gatherRound (k + 1) r ++ ((range (k + 1)).reverse.map A.gatherRound).flatMap (· r) := by
      intro r
      rw [range_succ, reverse_append, reverse_singleton, singleton_append, map_cons, flatMap_cons]
    rw [hstep, hsplit, ← append_assoc, ← hs']
    by_cases h : v / 2 ^ (k + 1) = A.newRoot / 2 ^ (k + 1)
    · rw [if_pos h, doublingHead_eq hk]
      exact ih (by omega) (by omega) h _ s'
    · rw [if_neg h, gatherRound_gone hv h, append_nil]

theorem replaceRoot_eq (rank : Nat) (x : Windows) (s : Sched) :
    ∃ x' s', replaceRoot (A.buf rank) A.count (2 ^ A.log) A.rem A.root rank (evenNew A.rem rank) x s =
        (x', s', gatherNew A.rem A.root rank, A.newRoot) ∧
      s'.entries = s.entries ++ entriesOf true (A.replaceRootKinds rank) ∧
      ((RootOut A.rem A.root ∧ rank = A.root → x' = { x with sendIdx := 0, lastIdx := 2 }) ∧
        (¬ (RootOut A.rem A.root ∧ rank = A.root) → x' = x)) := by
  have hcnt : blockCnts A.count (2 ^ A.log) 0 = tableCnt A.blocks A.log A.log 0 := by
    unfold tableCnt tableStart tableEnd
    rw [windowStart_zero_right, Nat.sub_self, Nat.pow_zero, Parts.sumTo, Parts.sumTo, Parts.sumTo, Nat.sub_zero, Nat.zero_add]
  by_cases hout : RootOut A.rem A.root
  · have hpos : 0 < A.rem := by have := hout.1; omega
    have h0 : evenNew A.rem rank = some 0 ↔ rank = 0 := by
      constructor
      · intro h
        rw [← evenRank_of_evenNew h, evenRank, if_pos hpos, Nat.zero_mul]
      · rintro rfl
        rw [evenNew, if_pos (by omega), if_neg (by omega)]
    unfold replaceRoot gatherNew newRoot OneCcl.newRoot replaceRootKinds
    rw [if_pos hout.1, if_pos hout.2, if_pos hout.1, if_pos hout.2, if_pos hout, if_pos hout]
    by_cases hr : rank = A.root
    · rw [if_pos hr, if_pos hr, if_pos hr]
      refine ⟨_, _, rfl, ?_, fun _ => rfl, fun hc => absurd ⟨hout, hr⟩ hc⟩
      rw [addBarrier_create_entries, entriesOf_singleton, hcnt, buf, if_neg (not_not_intro hr)]
    · rw [if_neg hr, if_neg hr, if_neg hr]
      by_cases hr0 : rank = 0
      · rw [if_pos (h0.mpr hr0), if_pos (h0.mpr hr0), if_pos hr0]
        refine ⟨_, _, rfl, ?_, fun hc => absurd hc.2 hr, fun _ => rfl⟩
        rw [addBarrier_create_entries, entriesOf_singleton, hcnt, buf, if_pos hr]
      · rw [if_neg (fun hc => hr0 (h0.mp hc)), if_neg (fun hc => hr0 (h0.mp hc)), if_neg hr0]
        exact ⟨_, _, rfl, (append_nil _).symm, fun hc => absurd hc.2 hr, fun _ => rfl⟩
  · have hkinds : A.replaceRootKinds rank = [] := if_neg hout
    have hnew : gatherNew A.rem A.root rank = evenNew A.rem rank := if_neg hout
    rw [hkinds, hnew]
    unfold replaceRoot newRoot OneCcl.newRoot
    by_cases h1 : A.root < 2 * A.rem
    · have h2 : ¬ A.root % 2 ≠ 0 := fun hc => hout ⟨h1, hc⟩
      rw [if_pos h1, if_neg h2, if_pos h1, if_neg h2]
      exact ⟨_, _, rfl, (append_nil _).symm, fun hc => absurd hc.1 hout, fun _ => rfl⟩
    · rw [if_neg h1, if_neg h1]
      exact ⟨_, _, rfl, (append_nil _).symm, fun hc => absurd hc.1 hout, fun _ => rfl⟩

theorem gather_start (hk : A.log = k + 1) {x x' : Windows}
    (hx : ∀ u, evenNew A.rem rank = some u → x = halvingHead A.log u A.log)
    (hout : RootOut A.rem A.root ∧ rank = A.root → x' = { x with sendIdx := 0, lastIdx := 2 })
    (hin : ¬ (RootOut A.rem A.root ∧ rank = A.root) → x' = x) (hv : gatherNew A.rem A.root rank = some v) :
    ∃ recvIdx, { x' with mask := 2 ^ A.log >>> 1 } = doublingHead A.log v k recvIdx := by
  by_cases h : RootOut A.rem A.root ∧ rank = A.root
  · rw [gatherNew, if_pos h.1, if_pos h.2] at hv
    cases hv
    refine ⟨x.recvIdx, ?_⟩
    rw [hout h, doublingHead, windowStart_zero_right, windowStart_zero_right, if_pos hk.symm, hk,
      Nat.shiftRight_eq_div_pow, Nat.pow_one, Nat.pow_succ, Nat.mul_div_cancel _ (by decide)]
  · have hnew : evenNew A.rem rank = some v := by
      unfold gatherNew at hv
      split at hv
      next h1 =>
        rw [if_neg (fun hc => h ⟨h1, hc⟩)] at hv
        split at hv
        next => cases hv
        next => exact hv
      next => exact hv
    refine ⟨windowStart A.log A.log v, ?_⟩
    rw [hin h, hx v hnew, hk]
    exact halvingHead_top v k

theorem gatherRound_idle (h : gatherNew A.rem A.root r = none) :
    ((range A.log).reverse.map A.gatherRound).flatMap (· r) = [] := by
  refine flatMap_eq_nil_iff.mpr fun R hR => ?_
  obtain ⟨k, -, rfl⟩ := mem_map.mp hR
  show entriesOf true (((A.gatherNumbering.on _ _).join).toList) = []
  rw [A.gatherNumbering.on_of_new _ h]
  rfl

variable (A) in
theorem rabenseifnerReduceMain_entries (hrank : rank < A.n) (s₀ : Sched) (hs₀ : s₀.entries = []) :
    (rabenseifnerReduceMain (A.sendBuf rank) (A.buf rank) reduceTmp A.count (2 ^ A.log) A.rem A.root
      rank s₀).entries = A.reduceRounds.flatMap (· rank) := by
  unfold rabenseifnerReduceMain
  generalize hcopy : (if rank ≠ A.root ∨ A.sendBuf rank ≠ A.buf rank then
    s₀.create (.copy (A.sendBuf rank) (A.buf rank) A.count) else s₀) = s₁
  have hs₁ : s₁.entries = entriesOf false (A.reduceCopyKinds rank) := by
    rw [← hcopy]
    unfold reduceCopyKinds
    by_cases h : rank ≠ A.root ∨ A.sendBuf rank ≠ A.buf rank
    · rw [if_pos h, if_pos ⟨h, hrank⟩, create_entries, hs₀]
      rfl
    · rw [if_neg h, if_neg (fun hc => h hc.1), hs₀]
      rfl
  have hs₂ := A.foldInEven_entries rank s₁
  obtain ⟨s₂, hfold⟩ : ∃ s₂, foldInEven (A.buf rank) reduceTmp A.count A.rem rank s₁ = (s₂, evenNew A.rem rank) :=
    ⟨_, Prod.ext rfl (foldInEven_snd (A.buf rank) reduceTmp A.count A.rem rank s₁)⟩
  rw [hfold] at hs₂
  dsimp only at hs₂ ⊢
  rw [hfold]
  -- the reduce-scatter
  obtain ⟨x, s₃, hrs, hs₃, hx⟩ : ∃ x s₃, (evenNew A.rem rank).elim (⟨1, 0, 0, 0⟩, s₂) (fun newRank =>
      halvingReduceLoop (A.buf rank) reduceTmp A.count (2 ^ A.log) A.rem newRank (2 ^ A.log)
        ⟨1, 0, 0, 2 ^ A.log⟩ s₂) = (x, s₃) ∧
      s₃.entries = s₂.entries ++ ((range A.log).flatMap A.reduceHalving.rounds).flatMap (· rank) ∧
      ∀ u, evenNew A.rem rank = some u → x = halvingHead A.log u A.log := by
    cases hv : evenNew A.rem rank with
    | none =>
      refine ⟨_, _, rfl, ?_, nofun⟩
      rw [reduceHalving_idle hv, append_nil]
    | some v =>
      obtain rfl := evenRank_of_evenNew hv
      obtain ⟨s₃, hloop, hs₃⟩ := A.halvingReduceLoop_eq (lt_of_evenRank_lt A.comm hrank) s₂
      exact ⟨_, s₃, hloop, hs₃, fun u hu => by rw [Option.some.inj hu]⟩
  rw [hrs]
  obtain ⟨x', s₄, hrep, hs₄, hout, hin⟩ := replaceRoot_eq rank x s₃
  rw [hrep]
  have hrounds : A.reduceRounds.flatMap (· rank) =
      s₄.entries ++ ((range A.log).reverse.map A.gatherRound).flatMap (· rank) := by
    rw [hs₄, hs₃, hs₂, hs₁]
    simp only [reduceRounds, flatMap_append, flatMap_cons, flatMap_nil, append_nil, ofKinds]
  rw [hrounds]
  -- the gather
  cases hv : gatherNew A.rem A.root rank with
  | none =>
    rw [gatherRound_idle hv, append_nil]
    rfl
  | some v =>
    obtain ⟨hlt, hreal⟩ := A.gatherNumbering.of_new rank hrank v hv
    obtain rfl : gatherRank A.rem A.root v = rank := hreal
    have hmasks := countMasks_eq (Nat.zero_le A.log) (2 ^ A.log) Nat.lt_two_pow_self.le
    rw [Nat.pow_zero] at hmasks
    rw [Option.elim_some, hmasks]
    rcases Nat.eq_zero_or_pos A.log with hzero | hpos
    · rw [hzero]
      simp [gatherLoop]
    · obtain ⟨k, hk⟩ : ∃ k, A.log = k + 1 := ⟨A.log - 1, by omega⟩
      obtain ⟨recvIdx, hstart⟩ := gather_start hk hx hout hin hv
      have hup : v / 2 ^ (k + 1) = A.newRoot / 2 ^ (k + 1) := by
        rw [← hk, Nat.div_eq_of_lt hlt, Nat.div_eq_of_lt (newRoot_lt A.comm A.root_lt)]
      have hfuel : k < 2 ^ A.log := Nat.lt_of_lt_of_le (by omega) Nat.lt_two_pow_self.le
      rw [hstart, show A.log - 1 = k by omega, gatherLoop_entries hlt (by omega) hfuel hup, hk]

variable (A) in
/-- **The builder makes the rounds**, at every rank. -/
theorem build_reduce_entries (hpos : 0 < A.count) (hle : A.comm.pof2 ≤ A.count) (hrank : rank < A.n) :
    ∃ s, cclCollBuildRabenseifnerReduce (A.sendBuf rank) A.recvBuf A.count A.root A.comm rank (.new 0) = some s ∧
      s.entries = A.reduceRounds.flatMap (· rank) := by
  have hrem : A.n - 2 ^ A.log = A.rem := by rw [rem, CclComm.rem, A.comm.pof2_eq]
  rw [A.comm.pof2_eq] at hle
  simp only [cclCollBuildRabenseifnerReduce, if_neg hpos.ne', allocBuffer_of_pos _ hpos,
    Option.bind_eq_bind, Option.bind_some, A.comm.pof2_eq, hrem]
  by_cases h : rank ≠ A.root
  · rw [if_pos h]
    refine ⟨_, if_neg (not_not_intro hle), ?_⟩
    have := A.rabenseifnerReduceMain_entries hrank ⟨0, [], 2⟩ rfl
    rwa [buf, if_pos h] at this
  · rw [if_neg h]
    refine ⟨_, if_neg (not_not_intro hle), ?_⟩
    have := A.rabenseifnerReduceMain_entries hrank ⟨0, [], 1⟩ rfl
    rwa [buf, if_neg h] at this

end ReduceCall

end OneCcl
