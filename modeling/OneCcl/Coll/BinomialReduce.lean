import OneCcl.Coll.RabenseifnerReduce
import OneCcl.Coll.RootedRanks

/-!
# The binomial reduce

`ccl_coll_build_binomial_reduce`: in the step of each bit, a rank whose relative rank has the bit set sends what it
has reduced so far to its parent and leaves, and one that has it not set receives from the child it may have there
and reduces. A rank other than the root has no `recv_buf` and allocates one.

All ranks receive into one temporary buffer. The barriers behind each receive and each reduction keep the next
child's data out of it until the last child's is used.

`binomial_reduce_correct` is the contract.
-/

namespace OneCcl

open Async List Reduction SchedRound

/-! ## The builder -/

def binomialReduceLoop (recvBuf tmpBuf : CclBuffer) (count commSize lroot relrank : Nat) : Nat → Nat → Sched → Sched
  | 0, _, sched => sched
  | fuel + 1, mask, sched =>
    if mask < commSize then
      if relrank &&& mask = 0 then
        let source := relrank ||| mask
        let sched :=
          if source < commSize then
            let source := (source + lroot) % commSize
            let sched := (sched.create (.recv tmpBuf count source)).addBarrier
            (sched.create (.reduceLocal tmpBuf count recvBuf)).addBarrier
          else sched
        binomialReduceLoop recvBuf tmpBuf count commSize lroot relrank fuel (mask <<< 1) sched
      else
        -- `relrank & (~mask)`
        let source := ((relrank ^^^ (relrank &&& mask)) + lroot) % commSize
        (sched.create (.send recvBuf count source)).addBarrier
    else sched

def binomialReduceMain (sendBuf recvBuf tmpBuf : CclBuffer) (count localRoot commSize rank : Nat) (sched : Sched) :
    Sched :=
  let sched :=
    if rank ≠ localRoot ∨ sendBuf ≠ recvBuf then (sched.create (.copy sendBuf recvBuf count)).addBarrier else sched
  let lroot := localRoot
  let relrank := (rank + commSize - lroot) % commSize
  binomialReduceLoop recvBuf tmpBuf count commSize lroot relrank commSize 1 sched

/-- `ccl_coll_build_binomial_reduce`. -/
def cclCollBuildBinomialReduce (sendBuf recvBuf : CclBuffer) (count root : Nat) (comm : CclComm) (rank : Nat)
    (sched : Sched) : Option Sched := do
  if count = 0 then return sched
  let localRoot := root
  let (tmpBuf, sched) ← sched.allocBuffer count
  let (recvBuf, sched) ← if rank ≠ localRoot then sched.allocBuffer count else some (recvBuf, sched)
  return binomialReduceMain sendBuf recvBuf tmpBuf count localRoot comm.size rank sched

/-! ## The rounds -/

/-- A number that has a child in step `k`. -/
def HasChild (n k v : Nat) : Prop := v % 2 ^ (k + 1) = 0 ∧ v + 2 ^ k < n

instance (n k v : Nat) : Decidable (HasChild n k v) := inferInstanceAs (Decidable (_ ∧ _))

namespace ReduceCall

section

variable (A : ReduceCall)

/-- The message of relative rank `v` in step `k`. -/
def binomialKind (k v : Nat) : Option EntryKind :=
  if HasChild A.n k v then some (.recv reduceTmp A.count (A.rank (v + 2 ^ k)))
  else if v % 2 ^ (k + 1) = 2 ^ k then
    some (.send (A.buf (A.rank v)) A.count (A.rank (v - 2 ^ k)))
  else none

/-- The reduction of relative rank `v` in step `k`. -/
def binomialReduceKind (k v : Nat) : Option EntryKind :=
  if HasChild A.n k v then some (.reduceLocal reduceTmp A.count (A.buf (A.rank v))) else none

/-- Step `k`: the messages, then the reductions. -/
def binomialStep (k : Nat) : List (List KindsRound) :=
  [[A.kinds (A.binomialKind k)], [A.kinds (A.binomialReduceKind k)]]

/-- The groups of the binomial reduce. There is nothing to do for the bits above the size. -/
def binomialGroups : List (List KindsRound) :=
  [[A.reduceCopyKinds]] ++ (range A.n).flatMap A.binomialStep

/-! ## What the builder leaves -/

/-- The entries of relative rank `v` in step `k`. -/
def binomialEntries (k v : Nat) : List SchedEntry :=
  entriesOf true (A.binomialKind k v).toList ++ entriesOf true (A.binomialReduceKind k v).toList

/-- The entries of a rank: the copy, and the steps. -/
def binomialReduceEntries (r : Nat) : List SchedEntry :=
  entriesOf true (A.reduceCopyKinds r) ++ (range A.n).flatMap fun k => A.binomialEntries k (A.rel r)

end

variable {A : ReduceCall} {k v r : Nat}

theorem binomialEntries_nil (hchild : ¬ HasChild A.n k v) (hhalf : v % 2 ^ (k + 1) ≠ 2 ^ k) :
    A.binomialEntries k v = [] := by
  rw [binomialEntries, binomialKind, binomialReduceKind, if_neg hchild, if_neg hhalf, if_neg hchild]
  rfl

theorem binomialEntries_of_sent {j : Nat} (h : v % 2 ^ (k + 1) = 2 ^ k) (hkj : k < j) :
    A.binomialEntries j v = [] := by
  apply binomialEntries_nil
  · intro hchild
    exact mod_two_pow_ne_of_half h (Nat.lt_succ_of_lt hkj) hchild.1
  · intro hhalf
    exact mod_two_pow_ne_of_half h hkj (mod_two_pow_of_half hhalf)

theorem binomialEntries_of_le (hv : v < A.n) (h : A.n ≤ 2 ^ k) : A.binomialEntries k v = [] := by
  apply binomialEntries_nil
  · intro hchild
    have := hchild.2
    omega
  · intro hhalf
    have := two_pow_le_of_half hhalf
    omega

theorem binomialReduceLoop_entries (hv : v < A.n) (fuel : Nat) (hk : v % 2 ^ k = 0) (sched : Sched) :
    (binomialReduceLoop (A.buf (A.rank v)) reduceTmp A.count A.n A.root v fuel (2 ^ k) sched).entries =
      sched.entries ++ (range' k fuel).flatMap fun j => A.binomialEntries j v := by
  induction fuel generalizing k sched with
  | zero => exact (append_nil _).symm
  | succ fuel ih =>
    have hnext : 2 ^ k <<< 1 = 2 ^ (k + 1) := by rw [Nat.shiftLeft_eq, Nat.pow_one, Nat.pow_succ]
    rw [binomialReduceLoop, range'_succ, flatMap_cons]
    by_cases hlt : 2 ^ k < A.n
    · rw [if_pos hlt]
      rcases mod_two_pow_succ hk with hzero | hhalf
      · -- the bit is not set: a child, if there is one, and on to the next bit
        rw [if_pos (and_two_pow_of_zero hzero), or_two_pow_of_zero hzero, hnext]
        rw [ih hzero, ← append_assoc]
        congr 1
        by_cases hsource : v + 2 ^ k < A.n
        · have hchild : HasChild A.n k v := ⟨hzero, hsource⟩
          rw [if_pos hsource, mod_rotUp hsource A.root_lt, binomialEntries, binomialKind, binomialReduceKind,
            if_pos hchild, if_pos hchild, Sched.addBarrier_create_entries, Sched.addBarrier_create_entries, append_assoc]
          rfl
        · have hhalf : v % 2 ^ (k + 1) ≠ 2 ^ k := by
            rw [hzero]
            exact (Nat.two_pow_pos k).ne
          rw [if_neg hsource, binomialEntries_nil (fun h => hsource h.2) hhalf, append_nil]
      · -- the bit is set: the parent, and out of the loop
        have hand := and_two_pow_of_half hhalf
        have hchild : ¬ HasChild A.n k v := by
          intro h
          have := h.1
          rw [hhalf] at this
          exact absurd this ((Nat.two_pow_pos k).ne')
        have hrest : ((range' (k + 1) fuel).flatMap fun j => A.binomialEntries j v) = [] := by
          apply flatMap_eq_nil_iff.mpr
          intro j hj
          exact binomialEntries_of_sent hhalf (mem_range'_1.mp hj).1
        rw [if_neg (by rw [hand]; exact (Nat.two_pow_pos k).ne'), hand, xor_two_pow_of_half hhalf, hrest,
          append_nil]
        rw [mod_rotUp ((Nat.sub_le v _).trans_lt hv) A.root_lt, Sched.addBarrier_create_entries, binomialEntries,
          binomialKind, binomialReduceKind, if_neg hchild, if_pos hhalf, if_neg hchild]
        rfl
    · -- no bits left
      have hle := not_lt.mp hlt
      have hrest : ((range' (k + 1) fuel).flatMap fun j => A.binomialEntries j v) = [] := by
        apply flatMap_eq_nil_iff.mpr
        intro j hj
        have hkj : k ≤ j := Nat.le_of_succ_le (mem_range'_1.mp hj).1
        exact binomialEntries_of_le hv (hle.trans (Nat.pow_le_pow_right (by decide) hkj))
      rw [if_neg hlt, binomialEntries_of_le hv hle, hrest, append_nil, append_nil]

variable (A) in
theorem binomialReduceMain_entries (hr : r < A.n) (sched : Sched) (hsched : sched.entries = []) :
    (binomialReduceMain (A.sendBuf r) (A.buf r) reduceTmp A.count A.root A.n r sched).entries =
      A.binomialReduceEntries r := by
  have hloop := binomialReduceLoop_entries (A.rel_lt hr) A.n (k := 0) (Nat.mod_one _)
  have hrel : (r + A.n - A.root) % A.n = A.rel r := mod_rotDown hr A.root_lt
  rw [A.rank_rel hr] at hloop
  unfold binomialReduceMain
  dsimp only
  rw [hrel, ← Nat.pow_zero 2, hloop, binomialReduceEntries, range_eq_range']
  congr 1
  unfold reduceCopyKinds
  by_cases h : r ≠ A.root ∨ A.sendBuf r ≠ A.buf r
  · rw [if_pos h, if_pos ⟨h, hr⟩, Sched.addBarrier_create_entries, hsched]
    rfl
  · rw [if_neg h, if_neg fun hc => h hc.1, hsched]
    rfl

variable (A) in
theorem cclCollBuildBinomialReduce_entries (hcount : 0 < A.count) (hr : r < A.n) :
    ∃ s, cclCollBuildBinomialReduce (A.sendBuf r) A.recvBuf A.count A.root A.comm r (.new 0) = some s ∧
      s.entries = A.binomialReduceEntries r := by
  simp only [cclCollBuildBinomialReduce, if_neg hcount.ne', Sched.allocBuffer_of_pos _ hcount,
    Option.bind_eq_bind, Option.bind_some]
  by_cases h : r ≠ A.root
  · rw [if_pos h]
    refine ⟨_, rfl, ?_⟩
    have hmain := A.binomialReduceMain_entries hr ⟨0, [], 2⟩ rfl
    rwa [buf, if_pos h] at hmain
  · rw [if_neg h]
    refine ⟨_, rfl, ?_⟩
    have hmain := A.binomialReduceMain_entries hr ⟨0, [], 1⟩ rfl
    rwa [buf, if_neg h] at hmain

/-! ## The rounds are good -/

section

variable {e : EntryKind}

theorem mem_binomialKind (h : e ∈ A.binomialKind k v) :
    (HasChild A.n k v ∧ e = .recv reduceTmp A.count (A.rank (v + 2 ^ k))) ∨
      (v % 2 ^ (k + 1) = 2 ^ k ∧ e = .send (A.buf (A.rank v)) A.count (A.rank (v - 2 ^ k))) := by
  unfold binomialKind at h
  split at h
  next hchild => exact .inl ⟨hchild, (Option.some.inj h).symm⟩
  next =>
    split at h
    next hhalf => exact .inr ⟨hhalf, (Option.some.inj h).symm⟩
    next => cases h

theorem binomialKind_child (h : HasChild A.n k v) :
    A.binomialKind k v = some (.recv reduceTmp A.count (A.rank (v + 2 ^ k))) := if_pos h

theorem binomialKind_half (h : v % 2 ^ (k + 1) = 2 ^ k) :
    A.binomialKind k v = some (.send (A.buf (A.rank v)) A.count (A.rank (v - 2 ^ k))) := by
  have hchild : ¬ HasChild A.n k v := by
    intro hc
    have := hc.1
    rw [h] at this
    exact absurd this ((Nat.two_pow_pos k).ne')
  rw [binomialKind, if_neg hchild, if_pos h]

variable (A) in
theorem binomialKind_good (k : Nat) : KindsGood (A.kinds (A.binomialKind k)) A.n := by
  refine A.numbering.kindsGood_single_on (fun v _ e he => ?_) (fun v hv e he d c hd => ?_)
    fun v hv e he s c hs => ?_
  · rcases mem_binomialKind he with ⟨-, rfl⟩ | ⟨-, rfl⟩
    · exact .inr ⟨_, rfl⟩
    · exact .inl ⟨_, rfl⟩
  · rcases mem_binomialKind he with ⟨-, rfl⟩ | ⟨hhalf, rfl⟩
    · cases hd
    · -- the parent receives
      cases hd
      have hle := two_pow_le_of_half hhalf
      have hback : v - 2 ^ k + 2 ^ k = v := Nat.sub_add_cancel hle
      have hparent : HasChild A.n k (v - 2 ^ k) := ⟨sub_two_pow_zero hhalf, by rwa [hback]⟩
      refine ⟨v - 2 ^ k, (Nat.sub_le ..).trans_lt hv, rfl, _, binomialKind_child hparent, ?_⟩
      rw [hback]
      rfl
  · rcases mem_binomialKind he with ⟨hchild, rfl⟩ | ⟨-, rfl⟩
    · -- the child sends
      cases hs
      refine ⟨v + 2 ^ k, hchild.2, rfl, _, binomialKind_half (add_two_pow_half hchild.1), ?_⟩
      rw [Nat.add_sub_cancel]
      rfl
    · cases hs

theorem isLocal_binomialReduceKind (h : e ∈ A.binomialReduceKind k v) : e.isLocal = true := by
  unfold binomialReduceKind at h
  split at h
  · cases h
    rfl
  · cases h

variable (A) in
theorem binomialStep_kindGroups (k : Nat) : KindGroups A.n (A.binomialStep k) := by
  constructor
  · intro G hG K hK
    rcases mem_cons.mp hG with rfl | hG
    · rw [mem_singleton.mp hK]
      exact A.binomialKind_good k
    · rw [mem_singleton.mp hG] at hK
      rw [mem_singleton.mp hK]
      exact A.kinds_local_good fun v e => isLocal_binomialReduceKind
  · intro G hG r
    rcases mem_pair.mp hG with rfl | rfl
    · exact A.kinds_beside _ r
    · exact A.kinds_beside _ r

theorem reduceCopy_kindGroups : KindGroups A.n [[A.reduceCopyKinds]] := by
  constructor
  · intro G hG K hK
    rw [mem_singleton.mp hG] at hK
    rw [mem_singleton.mp hK]
    exact reduceCopyKinds_good
  · intro G hG r
    rw [mem_singleton.mp hG, flatMap_singleton]
    unfold reduceCopyKinds
    split
    · exact pairwise_singleton ..
    · exact List.Pairwise.nil

variable (A) in
theorem binomialGroups_kindGroups : KindGroups A.n A.binomialGroups := by
  refine reduceCopy_kindGroups.append ⟨fun G hG => ?_, fun G hG => ?_⟩
  · obtain ⟨k, -, hG⟩ := mem_flatMap.mp hG
    exact (A.binomialStep_kindGroups k).good G hG
  · obtain ⟨k, -, hG⟩ := mem_flatMap.mp hG
    exact (A.binomialStep_kindGroups k).beside G hG

theorem binomialGroups_entries (hr : r < A.n) :
    (kindGroupsAt A.binomialGroups r).flatten = A.binomialReduceEntries r := by
  rw [kindGroupsAt, binomialGroups, map_append, flatten_append, binomialReduceEntries]
  congr 1
  · simp only [map_cons, map_nil, flatMap_singleton, flatten_singleton]
  · rw [map_flatMap, flatten_eq_flatMap, flatMap_assoc]
    apply flatMap_congr
    intro k _
    simp only [binomialStep, map_cons, map_nil, flatMap_cons, flatMap_nil, append_nil, A.kinds_of_lt _ hr,
      binomialEntries, id]

end

/-! ## What the rounds compute -/

section

variable {α : Type} (op : α → α → α) {i : Nat}

theorem binomialStep_exec_child (σ : Nat → Mem α) (hchild : HasChild A.n k v) (hi : i < A.count) :
    A.val (execKinds op (A.binomialStep k).flatten σ) i (A.rank v) =
      op (A.val σ i (A.rank v)) (A.val σ i (A.rank (v + 2 ^ k))) := by
  have hv : v < A.n := (Nat.le_add_right ..).trans_lt hchild.2
  have hsend : .send (A.buf (A.rank (v + 2 ^ k))) A.count (A.rank v) ∈
      A.kinds (A.binomialKind k) (A.rank (v + 2 ^ k)) := by
    rw [A.kinds_rank _ hchild.2, binomialKind_half (add_two_pow_half hchild.1), Nat.add_sub_cancel]
    exact mem_singleton.mpr rfl
  have hrecv := exec_recv op true σ (A.binomialKind_good k) (r := A.rank v)
    (by rw [A.kinds_rank _ hv, binomialKind_child hchild]; rfl) hsend
  have hkinds : A.kinds (A.binomialReduceKind k) (A.rank v) =
      [.reduceLocal reduceTmp A.count (A.buf (A.rank v))] := by
    rw [A.kinds_rank _ hv, binomialReduceKind, if_pos hchild]
    rfl
  -- the temporary buffer is not the one that is reduced into
  have hapart : PieceApart (reduceTmp, A.count) (A.buf (A.rank v), A.count) := .inl (A.reduceTmp_ne _)
  have hnot := Set.disjoint_right.mp hapart.disjoint (at_mem_region.mpr hi)
  show (ofKinds true _).exec op ((ofKinds true _).exec op σ) _ _ = _
  rw [exec_reduceLocal op true _ hkinds, compReduce_at hi hapart.disjoint, hrecv, store_load_at hi,
    store_load_of_notMem hnot]
  rfl

theorem binomialStep_exec_skip (σ : Nat → Mem α) (hv : v < A.n) (hchild : ¬ HasChild A.n k v)
    (hzero : v % 2 ^ (k + 1) = 0) :
    A.val (execKinds op (A.binomialStep k).flatten σ) i (A.rank v) = A.val σ i (A.rank v) := by
  have hhalf : v % 2 ^ (k + 1) ≠ 2 ^ k := by
    rw [hzero]
    exact (Nat.two_pow_pos k).ne
  have hmsg : A.kinds (A.binomialKind k) (A.rank v) = [] := by
    rw [A.kinds_rank _ hv, binomialKind, if_neg hchild, if_neg hhalf]
    rfl
  have hreduce : A.kinds (A.binomialReduceKind k) (A.rank v) = [] := by
    rw [A.kinds_rank _ hv, binomialReduceKind, if_neg hchild]
    rfl
  show (ofKinds true _).exec op ((ofKinds true _).exec op σ) _ _ = _
  rw [exec_idle op true _ hreduce, exec_idle op true _ hmsg]
  rfl

variable [Std.Commutative op] [Std.Associative op]

/-- **A whole run of steps**: a rank that has not sent yet holds the reduction of its subtree. -/
theorem binomialSteps_exec {f : Nat → α} {σ : Nat → Mem α} (hi : i < A.count)
    (hσ : ∀ v < A.n, A.val σ i (A.rank v) = f v) (m : Nat) (hv : v < A.n) (hzero : v % 2 ^ m = 0) :
    Reduces op f (subtree A.n m v)
      (A.val (execKinds op ((range m).flatMap A.binomialStep).flatten σ) i (A.rank v)) := by
  induction m generalizing v with
  | zero =>
    rw [subtree_zero hv]
    show Reduces op f {v} (A.val σ i (A.rank v))
    rw [hσ v hv]
    exact reduces_singleton f v
  | succ m ih =>
    rw [range_succ, flatMap_append, flatMap_singleton, flatten_append, execKinds_append]
    by_cases hchild : HasChild A.n m v
    · rw [binomialStep_exec_child op _ hchild hi]
      exact (ih hv (mod_two_pow_of_succ hzero)).subtree_join
        (ih hchild.2 (mod_two_pow_of_half (add_two_pow_half hzero)))
    · rw [binomialStep_exec_skip op _ hv hchild hzero]
      exact (ih hv (mod_two_pow_of_succ hzero)).subtree_skip (not_lt.mp fun h => hchild ⟨hzero, h⟩)

theorem binomialGroups_exec (mem : Nat → Mem α) (hi : i < A.count) :
    execKinds op A.binomialGroups.flatten mem A.root (A.recvBuf.at i) =
      reduceRange op A.n fun q => mem q ((A.sendBuf q).at i) := by
  have hpos := A.comm.size_pos
  have hσ : ∀ v < A.n, A.val (execKinds op [A.reduceCopyKinds] mem) i (A.rank v) =
      (fun q => mem q ((A.sendBuf q).at i)) (A.rank v) := fun v hv =>
    reduceCopy_exec op true mem (A.rank_lt hv) hi
  have hall := binomialSteps_exec op hi hσ A.n hpos (Nat.zero_mod _)
  rw [subtree_top Nat.lt_two_pow_self.le] at hall
  have hred := (Reduces.of_rotUp (f := fun q => mem q ((A.sendBuf q).at i)) A.root_lt hall).eq_reduceRange hpos
  rw [A.rank_zero, val, buf_root] at hred
  rw [binomialGroups, flatten_append, execKinds_append]
  exact hred

end

/-! ## What is sent -/

variable {e : SchedEntry}

theorem mem_binomialEntries (h : e ∈ A.binomialEntries k v) :
    e.kind ∈ A.binomialKind k v ∨ e.kind ∈ A.binomialReduceKind k v := by
  rcases mem_append.mp h with h | h
  · exact .inl (Option.mem_toList.mp (mem_entriesOf h))
  · exact .inr (Option.mem_toList.mp (mem_entriesOf h))

theorem half_of_send (h : e ∈ A.binomialEntries k v) {buf : CclBuffer} {cnt dst : Nat}
    (hsend : e.kind = .send buf cnt dst) : v % 2 ^ (k + 1) = 2 ^ k := by
  rcases mem_binomialEntries h with h | h
  · rcases mem_binomialKind h with ⟨-, he⟩ | ⟨hhalf, -⟩
    · rw [he] at hsend
      cases hsend
    · exact hhalf
  · have hlocal := isLocal_binomialReduceKind h
    rw [hsend] at hlocal
    cases hlocal

theorem binomialReduceEntries_late (r : Nat) : (A.binomialReduceEntries r).Pairwise SentThenApart := by
  have hcopy : ∀ e ∈ entriesOf true (A.reduceCopyKinds r), e.kind.isLocal = true :=
    fun e he => isLocal_reduceCopyKinds r (mem_entriesOf he)
  have hlocal : ∀ {e e' : SchedEntry}, e.kind.isLocal = true → SentThenApart e e' := by
    intro e e' he buf cnt dst p hsend _
    rw [hsend] at he
    cases he
  rw [binomialReduceEntries, pairwise_append]
  refine ⟨?_, pairwise_flatMap.mpr ⟨fun k _ => ?_, ?_⟩, fun e he e' _ => hlocal (hcopy e he)⟩
  · exact List.Pairwise.imp_of_mem (fun he _ _ => hlocal (hcopy _ he)) (pairwise_of_forall fun _ _ => trivial)
  · -- inside a step a rank sends or reduces
    refine List.Pairwise.imp_of_mem (fun {e e'} he he' _ => ?_) (pairwise_of_forall fun _ _ => trivial)
    intro buf cnt dst p hsend hp
    have hhalf := half_of_send he hsend
    rw [binomialEntries, binomialKind_half hhalf, binomialReduceKind, if_neg] at he'
    · rw [mem_singleton.mp he'] at hp
      cases hp
    · intro hchild
      have := hchild.1
      rw [hhalf] at this
      exact absurd this ((Nat.two_pow_pos k).ne')
  · -- and after the step in which it sends it does nothing
    refine pairwise_lt_range.imp fun {k j} hkj e he e' he' buf cnt dst p hsend _ => ?_
    rw [binomialEntries_of_sent (half_of_send he hsend) hkj] at he'
    cases he'

theorem binomialEntries_sent (k v : Nat) : (A.binomialEntries k v).filterMap (·.kind.sentTo) =
      if v % 2 ^ (k + 1) = 2 ^ k then [(A.rank (v - 2 ^ k), A.count)] else [] := by
  have hlocal : (A.binomialReduceKind k v).toList.filterMap (·.sentTo) = [] := by
    apply filterMap_eq_nil_iff.mpr
    intro e he
    have := isLocal_binomialReduceKind (Option.mem_toList.mp he)
    cases e with
    | send => cases this
    | _ => rfl
  rw [binomialEntries, filterMap_append, filterMap_entriesOf (·.sentTo), filterMap_entriesOf (·.sentTo), hlocal,
    append_nil]
  by_cases hhalf : v % 2 ^ (k + 1) = 2 ^ k
  · rw [if_pos hhalf, binomialKind_half hhalf]
    rfl
  · rw [if_neg hhalf, binomialKind, if_neg hhalf]
    split <;> rfl

/-- **Every rank but the root sends once**, and the root never. -/
theorem binomialReduceEntries_sent_once (hr : r < A.n) :
    ((A.binomialReduceEntries r).filterMap (·.kind.sentTo)).length = if r = A.root then 0 else 1 := by
  have hcopy : (entriesOf true (A.reduceCopyKinds r)).filterMap (·.kind.sentTo) = [] := by
    apply filterMap_eq_nil_iff.mpr
    intro e he
    have := isLocal_reduceCopyKinds r (mem_entriesOf he)
    cases hk : e.kind with
    | send =>
      rw [hk] at this
      cases this
    | _ => rfl
  rw [binomialReduceEntries, filterMap_append, hcopy, nil_append, filterMap_flatMap]
  simp only [binomialEntries_sent]
  rw [length_flatMap_lowest_bit (A.rel_lt hr)]
  simp only [A.rel_eq_zero]

end ReduceCall

/-! ## The contract -/

/-- **The binomial reduce is correct**: at every size, for every root and count, in place or not, every run of the
schedules completes and leaves the reduction of all data at the root. Every rank but the root sends once, and no
rank sends before all it receives is reduced. -/
theorem binomial_reduce_correct {α : Type} (op : α → α → α) [Std.Commutative op] [Std.Associative op]
    (comm : CclComm) {root : Nat} (hroot : root < comm.size) (sendBuf : Nat → CclBuffer) {recvBuf : CclBuffer}
    {count : Nat} (hbufs : CollBufs (sendBuf root) recvBuf count) (tag : Nat) (eager : Nat → Nat → Bool)
    (mem : Nat → Mem α) : ∃ sched : Nat → Sched,
      (∀ r < comm.size, cclCollBuildBinomialReduce (sendBuf r) recvBuf count root comm r (.new 0) = some (sched r)) ∧
      ((schedNet op comm.size tag eager sched).Completes mem fun s => ∀ i < count,
        s.mem root (recvBuf.at i) = reduceRange op comm.size fun q => mem q ((sendBuf q).at i)) ∧
      (0 < count → ∀ r < comm.size,
        ((sched r).entries.filterMap (·.kind.sentTo)).length = if r = root then 0 else 1) ∧
      MessagesMatch comm.size sched ∧ ReducedBeforeSent op comm.size tag eager sched mem := by
  rcases Nat.eq_zero_or_pos count with rfl | hcount
  · -- nothing to do
    refine ⟨fun _ => .new 0, fun r _ => rfl, (contract_of_nothing op tag eager mem).imp fun s _ i hi =>
      absurd hi (Nat.not_lt_zero i), fun h => absurd h (Nat.lt_irrefl 0),
      ⟨fun _ _ _ _ => rfl, fun _ _ _ _ => ⟨rfl, rfl⟩⟩, ?_⟩
    intro s _ r _ i j e e' p buf cnt dst hi
    cases hi
  let A : ReduceCall := ⟨⟨comm, root, hroot⟩, sendBuf, recvBuf, count, hbufs.recv_user⟩
  have hbuild : ∀ r < comm.size, ∃ s,
      cclCollBuildBinomialReduce (sendBuf r) recvBuf count root comm r (.new 0) = some s ∧
        s.entries = (kindGroupsAt A.binomialGroups r).flatten := by
    intro r hr
    rw [ReduceCall.binomialGroups_entries hr]
    exact A.cclCollBuildBinomialReduce_entries hcount hr
  obtain ⟨sched, hsched, hrun, hmatch, -⟩ :=
    contract_of_kindGroups hbuild A.binomialGroups_kindGroups op tag eager mem
  have hgroups : ∀ r < comm.size, (sched r).entries = (kindGroupsAt A.binomialGroups r).flatten := by
    intro r hr
    obtain ⟨s, hs, he⟩ := hbuild r hr
    rw [hsched r hr] at hs
    rw [Option.some.inj hs, he]
  refine ⟨sched, hsched, hrun.imp fun s hs i hi => ?_, fun _ r hr => ?_, hmatch, ?_⟩
  · rw [hs root]
    exact ReduceCall.binomialGroups_exec (A := A) op mem hi
  · rw [hgroups r hr, ReduceCall.binomialGroups_entries hr]
    exact ReduceCall.binomialReduceEntries_sent_once hr
  · refine reducedBeforeSent_of_groups hgroups (fun r _ => A.binomialGroups_kindGroups.grouped r) (fun r hr => ?_)
      op tag eager mem
    rw [ReduceCall.binomialGroups_entries hr]
    exact ReduceCall.binomialReduceEntries_late r

/-- Three ranks that have `q + 1` in each of two elements, with root `1`: it ends with `6`. -/
theorem binomial_reduce_three : ∃ sched : Nat → Sched,
      (∀ r < 3, cclCollBuildBinomialReduce ⟨.user 0, 0⟩ ⟨.user 1, 0⟩ 2 1 ⟨3, by decide, by decide⟩ r (.new 0) =
        some (sched r)) ∧
      (schedNet (· + ·) 3 0 (fun _ _ => false) sched).Completes (fun q _ => q + 1) fun s =>
        ∀ i < 2, s.mem 1 (CclBuffer.at ⟨.user 1, 0⟩ i) = 6 := by
  have hbufs : CollBufs ⟨.user 0, 0⟩ ⟨.user 1, 0⟩ 2 := ⟨⟨0, rfl⟩, ⟨1, rfl⟩, .inr (.inl nofun)⟩
  obtain ⟨sched, hsched, hrun, -⟩ := binomial_reduce_correct (α := Nat) (· + ·) ⟨3, by decide, by decide⟩
    (show 1 < 3 by decide) (fun _ => ⟨.user 0, 0⟩) hbufs 0 (fun _ _ => false) fun q _ => q + 1
  exact ⟨sched, hsched, hrun⟩

end OneCcl
