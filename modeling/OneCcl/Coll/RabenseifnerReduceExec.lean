import OneCcl.Coll.RabenseifnerReduce

/-!
# Rabenseifner's reduce is correct

What the rounds of the reduce compute, one by one: the copy, the folding, the reduce-scatter, the hand-over to a root
that was folded out, and the gather. `rabenseifner_reduce_correct` puts them together.
-/

namespace OneCcl

open Async Reduction List SchedRound

namespace ReduceCall

/-! ## What the rounds compute -/

variable {A : ReduceCall} {α : Type} (op : α → α → α) {v i k : Nat}

theorem foldInEven_exec (σ : Nat → Mem α) (hi : i < A.count) :
    A.val (execRounds op [.ofKinds true A.foldInEvenKinds, .ofKinds true A.foldInEvenReduceKinds] σ) i
        (evenRank A.rem v) =
      if v < A.rem then op (A.val σ i (2 * v)) (A.val σ i (2 * v + 1)) else A.val σ i (v + A.rem) := by
  unfold val
  show exec op _ (exec op _ σ) _ _ = _
  unfold evenRank
  by_cases hv : v < A.rem
  · rw [if_pos hv, if_pos hv, Nat.mul_comm v 2]
    have hapart : PieceApart (reduceTmp, A.count) (A.buf (2 * v), A.count) := .inl (A.reduceTmp_ne _)
    have hsend : .send (A.buf (2 * v + 1)) A.count (2 * v) ∈ A.foldInEvenKinds (2 * v + 1) := by
      rw [foldInEvenKinds, if_pos (by omega), if_pos (by omega)]
      exact mem_singleton.mpr rfl
    have hrecv : A.foldInEvenKinds (2 * v) = [.recv reduceTmp A.count (2 * v + 1)] := by
      rw [foldInEvenKinds, if_pos (by omega), if_neg (by omega)]
    have hred : A.foldInEvenReduceKinds (2 * v) = [.reduceLocal reduceTmp A.count (A.buf (2 * v))] :=
      if_pos ⟨by omega, by omega⟩
    rw [exec_reduceLocal op true _ hred, compReduce_at hi hapart.disjoint,
      exec_recv op true σ foldInEvenKinds_good hrecv hsend, store_load_at hi,
      store_load_of_notMem (Set.disjoint_right.mp hapart.disjoint (at_mem_region.mpr hi))]
  · rw [if_neg hv, if_neg hv, exec_idle op true _ (if_neg (by omega)), exec_idle op true _ (if_neg (by omega))]

theorem replaceRoot_exec (σ : Nat → Mem α) (hv : v < 2 ^ A.log) (hhi : i < tableEnd A.blocks A.log A.log v) :
    A.val (exec op (.ofKinds true A.replaceRootKinds) σ) i (gatherRank A.rem A.root v) =
      A.val σ i (evenRank A.rem v) := by
  unfold val
  by_cases h : v = 0 ∧ RootOut A.rem A.root
  · obtain ⟨rfl, hout⟩ := h
    have hpos : 0 < A.rem := by
      have := hout.1
      omega
    have hne : (0 : Nat) ≠ A.root := fun hc => hout.2 (by rw [← hc])
    have hzero : evenRank A.rem 0 = 0 := by rw [evenRank, if_pos hpos, Nat.zero_mul]
    have hrecv : A.replaceRootKinds A.root = [.recv A.recvBuf (tableCnt A.blocks A.log A.log 0) 0] := by
      rw [replaceRootKinds, if_pos hout, if_pos rfl]
    have hsend : .send ⟨.alloc 0 1, 0⟩ (tableCnt A.blocks A.log A.log 0) A.root ∈ A.replaceRootKinds 0 := by
      rw [replaceRootKinds, if_pos hout, if_neg hne, if_pos rfl]
      exact mem_singleton.mpr rfl
    have hi : i < tableCnt A.blocks A.log A.log 0 := by
      rw [tableCnt, tableStart, windowStart_zero_right]
      exact hhi
    have hbuf0 : A.buf 0 = ⟨.alloc 0 1, 0⟩ := if_pos hne
    rw [gatherRank_zero hout, hzero, buf_root, hbuf0, exec_recv op true σ replaceRootKinds_good hrecv hsend,
      store_load_at hi]
  · rw [gatherRank_of_not h]
    have hidle : A.replaceRootKinds (evenRank A.rem v) = [] := by
      unfold replaceRootKinds
      split
      next hout =>
        have hpos : 0 < A.rem := by
          have := hout.1
          omega
        rw [if_neg (hout.evenRank_ne v), if_neg]
        intro hc
        refine h ⟨?_, hout⟩
        unfold evenRank at hc
        split at hc <;> omega
      next => rfl
    rw [exec_idle op true σ hidle]

/-- The ranks of a step, and their partners, are there in the step before. -/
theorem gather_stay (k v : Nat) (h : v / 2 ^ k = A.newRoot / 2 ^ k) :
    v / 2 ^ (k + 1) = A.newRoot / 2 ^ (k + 1) ∧ (v ^^^ 2 ^ k) / 2 ^ (k + 1) = A.newRoot / 2 ^ (k + 1) := by
  rw [xor_two_pow_div, and_self, Nat.pow_succ, ← Nat.div_div_eq_div_mul, ← Nat.div_div_eq_div_mul, h]

theorem gatherRound_exec (hk : k < A.log) (σ : Nat → Mem α) (hv : v < 2 ^ A.log)
    (h : v / 2 ^ k = A.newRoot / 2 ^ k) :
    (tableStart A.blocks A.log (k + 1) v ≤ i → i < tableEnd A.blocks A.log (k + 1) v →
      A.val ((A.gatherRound k).exec op σ) i (gatherRank A.rem A.root v) = A.val σ i (gatherRank A.rem A.root v)) ∧
    (tableStart A.blocks A.log (k + 1) (v ^^^ 2 ^ k) ≤ i → i < tableEnd A.blocks A.log (k + 1) (v ^^^ 2 ^ k) →
      A.val ((A.gatherRound k).exec op σ) i (gatherRank A.rem A.root v) =
        A.val σ i (gatherRank A.rem A.root (v ^^^ 2 ^ k))) := by
  obtain ⟨-, hup⟩ := gather_stay k v h
  have hother : ¬ (v ^^^ 2 ^ k) / 2 ^ k = A.newRoot / 2 ^ k :=
    fun hc => (gather_active (xor_two_pow_div v k ▸ hup)).mp hc h
  have hkinds : ∀ u < 2 ^ A.log, (fun r => ((A.gatherNumbering.on (A.gatherKind k) r).join).toList)
      (gatherRank A.rem A.root u) = (A.gatherKind k u).toList := by
    intro u hu
    show ((A.gatherNumbering.on _ (A.gatherNumbering.real u)).join).toList = _
    rw [A.gatherNumbering.on_real _ hu]
    rfl
  have hrecv := hkinds v hv
  have hsend := hkinds _ (xor_two_pow_lt hv hk)
  rw [gatherKind_recv h, Option.toList_some] at hrecv
  rw [gatherKind_send hup hother, Option.toList_some, Nat.xor_xor_cancel_right] at hsend
  have hexec := exec_recv op true σ (A.gatherRound_good hk) hrecv (hsend ▸ mem_singleton.mpr rfl)
  unfold gatherRound val
  rw [hexec]
  refine ⟨fun hlo hhi => ?_, fun hlo hhi => ?_⟩
  · refine store_load_of_notMem (fun hm => ?_) _ _ _
    have hseg := table_halves A.blocks hk v
    have hmem := at_mem_region_add.mp hm
    unfold tableCnt at hmem
    omega
  · obtain ⟨j, rfl⟩ := Nat.exists_eq_add_of_le hlo
    have hj : j < tableCnt A.blocks A.log (k + 1) (v ^^^ 2 ^ k) := by
      unfold tableCnt
      omega
    rw [← CclBuffer.add_at, ← CclBuffer.add_at, store_load_at hj]

variable [Std.Commutative op] [Std.Associative op]

variable (A) in
/-- **What the rounds leave at the root**: the reduction of all data. -/
theorem reduceRounds_exec (hcount : A.count < 2 ^ 31) (σ : Nat → Mem α) (hi : i < A.count) :
    execRounds op A.reduceRounds σ A.root (A.recvBuf.at i) =
      reduceRange op A.n fun q => σ q ((A.sendBuf q).at i) := by
  have hrem : A.rem ≤ 2 ^ A.log := A.comm.rem_lt.le
  have hsize : A.n = 2 ^ A.log + A.rem := A.comm.size_eq
  unfold reduceRounds
  rw [execRounds_append, execRounds_append, execRounds_append, execRounds_append]
  generalize hσ₁ : execRounds op [.ofKinds false A.reduceCopyKinds] σ = σ₁
  generalize hσ₂ : execRounds op [.ofKinds true A.foldInEvenKinds, .ofKinds true A.foldInEvenReduceKinds] σ₁ = σ₂
  generalize hσ₃ : execRounds op ((range A.log).flatMap A.reduceHalving.rounds) σ₂ = σ₃
  generalize hσ₄ : execRounds op [.ofKinds true A.replaceRootKinds] σ₃ = σ₄
  have h₁ : ∀ q < A.n, ∀ j < A.count, A.val σ₁ j q = σ q ((A.sendBuf q).at j) := by
    intro q hq j hj
    rw [← hσ₁]
    exact reduceCopy_exec op false σ hq hj
  have h₂ : ∀ v < 2 ^ A.log, ∀ j < A.count,
      Reduces op (fun q => σ q ((A.sendBuf q).at j)) (folded A.rem v) (A.val σ₂ j (evenRank A.rem v)) := by
    intro v hv j hj
    rw [← hσ₂, foldInEven_exec op σ₁ hj]
    split
    next h =>
      rw [h₁ _ (by omega) j hj, h₁ _ (by omega) j hj]
      exact reduces_pair' (fun q => σ q ((A.sendBuf q).at j)) h
    next h =>
      rw [h₁ _ (by omega) j hj]
      exact reduces_single (fun q => σ q ((A.sendBuf q).at j)) (not_lt.mp h)
  have h₄ : ∀ v < 2 ^ A.log, ∀ j, tableStart A.blocks A.log A.log v ≤ j → j < tableEnd A.blocks A.log A.log v →
      Reduces op (fun u => A.val σ₂ j (evenRank A.rem u)) (Finset.range (2 ^ A.log))
        (A.val σ₄ j (gatherRank A.rem A.root v)) := by
    intro v hv j hlo hhi
    rw [← hσ₄]
    show Reduces op _ _ (A.val (exec op _ _) _ _)
    rw [replaceRoot_exec op σ₃ hv hhi, ← hσ₃]
    exact A.reduceHalving.run_exec op σ₂ hv hlo hhi
  have hgather := doubling_exec (fun σ i v => A.val σ i (gatherRank A.rem A.root v))
    (fun k v => v / 2 ^ k = A.newRoot / 2 ^ k)
    (Q := fun i => Reduces op (fun u => A.val σ₂ i (evenRank A.rem u)) (Finset.range (2 ^ A.log))) gather_stay
    (fun k hk σ v hv h i => gatherRound_exec op hk σ hv h) h₄ (Nat.zero_add A.log) (newRoot_lt A.comm A.root_lt) rfl
    (Nat.zero_le i) (by rwa [blockCnts_end hcount])
  rw [gatherRank_newRoot, val, buf_root, ← range_eq_range'] at hgather
  refine Reduces.eq_reduceRange A.comm.size_pos ?_
  rw [hsize]
  exact hgather.unfold hrem fun v hv => h₂ v hv i hi

end ReduceCall

/-! ## The contract -/

/-- **Rabenseifner's reduce is correct**: at every size, for every root (also one that is folded out) and every count
that gives each of the power of two of ranks a block, in place or not, every run of the schedules completes and
leaves the reduction of all data at the root, and every send has its receive. -/
theorem rabenseifner_reduce_correct {α : Type} (op : α → α → α) [Std.Commutative op] [Std.Associative op]
    (comm : CclComm) {root : Nat} (hroot : root < comm.size) (sendBuf : Nat → CclBuffer) {recvBuf : CclBuffer}
    {count : Nat} (hbufs : CollBufs (sendBuf root) recvBuf count) (hle : comm.pof2 ≤ count) (hcount : count < 2 ^ 31)
    (tag : Nat) (eager : Nat → Nat → Bool) (mem : Nat → Mem α) : ∃ sched : Nat → Sched,
      (∀ r < comm.size, cclCollBuildRabenseifnerReduce (sendBuf r) recvBuf count root comm r (.new 0) =
        some (sched r)) ∧
      ((schedNet op comm.size tag eager sched).Completes mem fun s => ∀ i < count,
        s.mem root (recvBuf.at i) = reduceRange op comm.size fun q => mem q ((sendBuf q).at i)) ∧
      MessagesMatch comm.size sched := by
  let A : ReduceCall := ⟨⟨comm, root, hroot⟩, sendBuf, recvBuf, count, hbufs.recv_user⟩
  have hpos : 0 < count := Nat.lt_of_lt_of_le (by rw [comm.pof2_eq]; exact Nat.two_pow_pos _) hle
  have hgood := fun R hR => (ReduceCall.reduceRounds_good (A := A) (R := R) hR).1
  have hclosed := fun R hR => (ReduceCall.reduceRounds_good (A := A) (R := R) hR).2
  obtain ⟨sched, hbuild, hrun, hmatch⟩ := contract_of_rounds (fun r hr => A.build_reduce_entries hpos hle hr) hgood
    (raceFree_of_closed hgood hclosed op tag) eager mem
  refine ⟨sched, hbuild, hrun.imp fun s hs i hi => ?_, hmatch⟩
  rw [hs root]
  exact A.reduceRounds_exec op hcount mem hi

/-- Three ranks that have `q + 1` in each of five elements, and the root folded out: it ends with `6`. -/
theorem rabenseifner_reduce_three : ∃ sched : Nat → Sched,
      (∀ r < 3, cclCollBuildRabenseifnerReduce ⟨.user 0, 0⟩ ⟨.user 1, 0⟩ 5 1 ⟨3, by decide, by decide⟩ r (.new 0) =
        some (sched r)) ∧
      (schedNet (· + ·) 3 0 (fun _ _ => false) sched).Completes (fun q _ => q + 1) fun s =>
        ∀ i < 5, s.mem 1 (CclBuffer.at ⟨.user 1, 0⟩ i) = 6 := by
  have hbufs : CollBufs ⟨.user 0, 0⟩ ⟨.user 1, 0⟩ 5 := ⟨⟨0, rfl⟩, ⟨1, rfl⟩, .inr (.inl nofun)⟩
  obtain ⟨sched, hsched, hrun, -⟩ := rabenseifner_reduce_correct (α := Nat) (· + ·) ⟨3, by decide, by decide⟩
    (show 1 < 3 by decide) (fun _ => ⟨.user 0, 0⟩) hbufs (by decide) (by decide) 0 (fun _ _ => false) fun q _ => q + 1
  exact ⟨sched, hsched, hrun⟩

end OneCcl
