import OneCcl.Coll.FoldRanks

/-!
# Recursive doubling allreduce

`ccl_coll_build_recursive_doubling_allreduce`. After the ranks are folded onto a power of two, in step `k` every
rank exchanges all it has with the rank whose new number differs in bit `k`, and reduces what it gets: it
receives into a temporary buffer while it sends from `recv_buf`, and reduces behind a barrier.

`recursive_doubling_allreduce_correct` is the contract, for every size, count and order of completion.
-/

namespace OneCcl

open Async Reduction List SchedRound

def doublingLoop (recvBuf tmpBuf : CclBuffer) (count pof2 rem newrank : Nat) : Nat → Nat → Sched → Sched
  | 0, _, sched => sched
  | fuel + 1, mask, sched =>
    if mask < pof2 then
      let newdst := newrank ^^^ mask
      let dst := realRank rem newdst
      let sched := sched.create (.recv tmpBuf count dst)
      let sched := (sched.create (.send recvBuf count dst)).addBarrier
      let sched := (sched.create (.reduceLocal tmpBuf count recvBuf)).addBarrier
      doublingLoop recvBuf tmpBuf count pof2 rem newrank fuel (mask <<< 1) sched
    else sched

/-- `ccl_coll_build_recursive_doubling_allreduce`. -/
def cclCollBuildRecursiveDoublingAllreduce (sendBuf recvBuf : CclBuffer) (count : Nat) (comm : CclComm) :
    Nat → Sched → Option Sched :=
  buildFolded
    (fun tmpBuf newrank sched =>
      some (doublingLoop recvBuf tmpBuf count comm.pof2 (comm.size - comm.pof2) newrank comm.pof2 1 sched))
    true sendBuf recvBuf count comm

/-! ## The rounds -/

namespace AllreduceCall

variable (A : AllreduceCall)

/-- What new rank `v` exchanges in step `k`. -/
def doublingSwap (k v : Nat) : Swap :=
  let dst := A.real (v ^^^ 2 ^ k)
  ⟨.recv foldTmp A.count dst, A.recvBuf, dst, A.count, dst, A.count⟩

/-- Step `k`: the exchange and the reduction. -/
def doublingStep (k : Nat) : List SchedRound :=
  [.ofKinds true (swapKinds false (A.onFolded (A.doublingSwap k))),
    .ofKinds true fun r => (A.onFolded (fun _ => .reduceLocal foldTmp A.count A.recvBuf) r).toList]

variable {A} {k v i : Nat}

theorem doublingSwap_good (hk : k < A.log) : SwapGood (A.onFolded (A.doublingSwap k)) A.n := by
  refine Numbering.swapGood_on hk (fun _ _ => rfl) (fun _ _ => rfl) (fun _ _ => rfl) (fun _ _ => rfl) fun v _ =>
    ⟨fun p hp q hq => ?_, forall_mem_nil _⟩
  rw [mem_singleton.mp hp, mem_singleton.mp hq]
  exact foldTmp_apart

theorem doublingLoop_entries (hv : v < 2 ^ A.log) (sched : Sched) :
    (doublingLoop A.recvBuf foldTmp A.count (2 ^ A.log) A.rem v (2 ^ A.log) 1 sched).entries =
      sched.entries ++ ((range A.log).flatMap A.doublingStep).flatMap (· (A.real v)) := by
  obtain ⟨s', hloop, hs'⟩ : ∃ s', doublingLoop A.recvBuf foldTmp A.count (2 ^ A.log) A.rem v (2 ^ A.log) (2 ^ 0)
      sched = s' ∧ s'.entries = sched.entries ++
        (range A.log).flatMap fun k => (A.doublingStep k).flatMap (· (A.real v)) := by
    refine loop_entries (I := fun _ _ => True) _ (fun _ s => s) (2 ^ ·) (fun _ _ => rfl)
      (fun _ _ => if_neg (lt_irrefl _)) (fun k hk fuel s _ => ?_) Nat.lt_two_pow_self.le trivial
    rw [doublingLoop, if_pos (Nat.pow_lt_pow_right (by decide) hk), Nat.shiftLeft_eq, ← Nat.pow_succ]
    refine ⟨_, rfl, trivial, ?_⟩
    simp only [doublingStep, flatMap_cons, flatMap_nil, append_nil, ofKinds, swapKinds, onFolded_real _ hv,
      Option.elim_some, Option.toList_some, Swap.kinds, Bool.false_eq_true, if_false, entriesOf_cons_cons,
      entriesOf_singleton, Sched.addBarrier_create_entries, Sched.create_entries, doublingSwap, append_assoc,
      cons_append, nil_append]
  rw [flatMap_assoc, ← hs', ← hloop]
  rfl

variable (A) in
theorem doubling_mainRounds : A.MainRounds (fun tmpBuf newrank sched => some (doublingLoop A.recvBuf tmpBuf A.count
      A.comm.pof2 (A.comm.size - A.comm.pof2) newrank A.comm.pof2 1 sched))
    ((range A.log).flatMap A.doublingStep) := by
  refine ⟨fun v hv s _ _ => ⟨_, rfl, ?_⟩, fun r hr => ?_, fun hone => ?_, fun R hR => ?_⟩
  · rw [A.pof2_eq, A.size_sub_pof2]
    exact doublingLoop_entries hv s
  · refine flatMap_eq_nil_iff.mpr fun R hR => ?_
    obtain ⟨k, -, hR⟩ := mem_flatMap.mp hR
    simp only [doublingStep, mem_cons, not_mem_nil, or_false] at hR
    rcases hR with rfl | rfl <;>
      simp only [ofKinds, swapKinds, onFolded_of_newRank _ hr, Option.elim_none, Option.toList_none,
        entriesOf_nil]
  · rw [A.log_of_one hone]
    rfl
  · obtain ⟨k, hk, hR⟩ := mem_flatMap.mp hR
    simp only [doublingStep, mem_cons, not_mem_nil, or_false] at hR
    rcases hR with rfl | rfl
    · exact ⟨_, (doublingSwap_good (mem_range.mp hk)).kindsGood false, rfl⟩
    · exact ⟨_, (foldNumbering A.comm).kindsGood_on fun _ => rfl, rfl⟩

/-! ## What the rounds compute -/

variable {α : Type} (op : α → α → α)

theorem doublingStep_exec (hk : k < A.log) (σ : Nat → Mem α) (hv : v < 2 ^ A.log) (hi : i < A.count) :
    execRounds op (A.doublingStep k) σ (A.real v) (A.recvBuf.at i) =
      op (σ (A.real v) (A.recvBuf.at i)) (σ (A.real (v ^^^ 2 ^ k)) (A.recvBuf.at i)) := by
  show exec op _ (exec op _ σ) _ _ = _
  have hred : (fun r => (A.onFolded (fun _ => EntryKind.reduceLocal foldTmp A.count A.recvBuf) r).toList)
      (A.real v) = [.reduceLocal foldTmp A.count A.recvBuf] := by
    show Option.toList _ = _
    rw [onFolded_real _ hv]
    rfl
  have hpart := onFolded_real (A.doublingSwap k) (xor_two_pow_lt hv hk)
  have hgood := doublingSwap_good hk
  rw [exec_reduceLocal op true _ hred, compReduce_at hi foldTmp_apart.disjoint,
    hgood.exec_recv_at op true false σ (onFolded_real _ hv) hpart rfl rfl hi,
    hgood.exec_recv_of_notMem op true false σ (onFolded_real _ hv) hpart rfl rfl
      (Set.disjoint_right.mp foldTmp_apart.disjoint (at_mem_region.mpr hi))]
  rfl

/-- **After `k` steps** a rank has the reduction over the ranks that agree with it above bit `k`. -/
theorem doublingSteps_exec [Std.Commutative op] [Std.Associative op] (σ : Nat → Mem α) (hk : k ≤ A.log)
    (hv : v < 2 ^ A.log) (hi : i < A.count) :
    Reduces op (fun u => σ (A.real u) (A.recvBuf.at i)) (block k v)
      (execRounds op ((range k).flatMap A.doublingStep) σ (A.real v) (A.recvBuf.at i)) := by
  induction k generalizing v with
  | zero =>
    rw [block_zero]
    exact reduces_singleton _ v
  | succ k ih =>
    rw [range_succ, flatMap_append, flatMap_singleton, execRounds_append, doublingStep_exec op hk _ hv hi]
    exact (ih (Nat.le_of_lt hk) hv).double (ih (Nat.le_of_lt hk) (xor_two_pow_lt hv hk))

end AllreduceCall

/-! ## The contract -/

/-- **The recursive doubling allreduce is correct**: at every size and count, in place or not, every run of the
schedules completes, and leaves the reduction of all data at every rank, the same at all of them. -/
theorem recursive_doubling_allreduce_correct {α : Type} (op : α → α → α) [Std.Commutative op]
    [Std.Associative op] (comm : CclComm) {sendBuf : Nat → CclBuffer} {recvBuf : CclBuffer} {count : Nat}
    (hbufs : ∀ r < comm.size, CollBufs (sendBuf r) recvBuf count) (tag : Nat) (eager : Nat → Nat → Bool)
    (mem : Nat → Mem α) : ∃ sched : Nat → Sched,
      (∀ r < comm.size, cclCollBuildRecursiveDoublingAllreduce (sendBuf r) recvBuf count comm r (.new 0) =
        some (sched r)) ∧
      (schedNet op comm.size tag eager sched).Completes mem fun s =>
        (∀ r < comm.size, ∀ i < count,
          s.mem r (recvBuf.at i) = reduceRange op comm.size fun q => mem q ((sendBuf q).at i)) ∧
        ∀ r < comm.size, ∀ r' < comm.size, ∀ i < count, s.mem r (recvBuf.at i) = s.mem r' (recvBuf.at i) := by
  rcases Nat.eq_zero_or_pos count with rfl | hcount
  · -- nothing to do, and nothing is built
    exact ⟨fun _ => .new 0, fun r _ => rfl, (contract_of_nothing op tag eager mem).imp fun s _ =>
      ⟨fun _ _ _ hi => absurd hi (Nat.not_lt_zero _), fun _ _ _ _ _ hi => absurd hi (Nat.not_lt_zero _)⟩⟩
  · let A : AllreduceCall := ⟨comm, sendBuf, recvBuf, count, hbufs⟩
    have hmid : A.ReducesFolded ((range A.log).flatMap A.doublingStep) op := fun σ v hv i hi =>
      block_top hv ▸ AllreduceCall.doublingSteps_exec op σ le_rfl hv hi
    obtain ⟨sched, hbuild, hrun, -⟩ := A.doubling_mainRounds.contract op hcount true hmid tag eager mem
    exact ⟨sched, hbuild, hrun.imp fun s hval =>
      ⟨hval, fun r hr r' hr' i hi => (hval r hr i hi).trans (hval r' hr' i hi).symm⟩⟩

/-- Three ranks, the last of them in place, that have `q + 1` each: all end with `6`. -/
theorem recursive_doubling_allreduce_three : ∃ sched : Nat → Sched,
      (∀ r < 3, cclCollBuildRecursiveDoublingAllreduce (if r < 2 then ⟨.user 0, 0⟩ else ⟨.user 1, 0⟩) ⟨.user 1, 0⟩ 2
        ⟨3, by decide, by decide⟩ r (.new 0) = some (sched r)) ∧
      (schedNet (· + ·) 3 0 (fun _ _ => false) sched).Completes (fun q _ => q + 1) fun s =>
        ∀ r < 3, ∀ i < 2, s.mem r (CclBuffer.at ⟨.user 1, 0⟩ i) = 6 := by
  obtain ⟨sched, hsched, hrun⟩ := recursive_doubling_allreduce_correct (α := Nat) (· + ·) ⟨3, by decide, by decide⟩
    (fun r _ => collBufs_mixed 2 2 r) 0 (fun _ _ => false) fun q _ => q + 1
  exact ⟨sched, hsched, hrun.imp fun s hs => hs.1⟩

end OneCcl
