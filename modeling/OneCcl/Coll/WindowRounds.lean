import OneCcl.Coll.FoldRanks
import OneCcl.Coll.Windows

/-!
# The two halves of Rabenseifner's algorithm

A reduce-scatter by recursive halving: in step `k`, from the lowest bit up, a rank sends the half of its segment that
its partner keeps and reduces the half it keeps itself, which arrives in a temporary buffer. `Halving` has the ranks,
the table of the blocks and the buffers as fields.

An allgather by recursive doubling: the ranks that take part each have one block of the table, and in step `k`,
from the highest bit down, a rank sends the segment it has and gets the segment its partner has. The table of the
blocks, the buffer and the order of the two messages are parameters.
-/

namespace OneCcl

open Async Reduction List

variable {k v i : Nat}

theorem table_apart (cnts : Nat → Nat) (buf : CclBuffer) {K : Nat} (hk : k < K) (v : Nat) :
    PieceApart (buf + tableStart cnts K (k + 1) v, tableCnt cnts K (k + 1) v)
      (buf + tableStart cnts K (k + 1) (v ^^^ 2 ^ k), tableCnt cnts K (k + 1) (v ^^^ 2 ^ k)) := by
  have h := table_halves cnts hk v
  unfold PieceApart tableCnt
  simp only [CclBuffer.add_offset]
  omega

/-! ## Recursive halving -/

/-- A reduce-scatter through a temporary buffer: `buf r` is what rank `r` reduces into. -/
structure Halving (n : Nat) where
  log : Nat
  ranks : Numbering n (2 ^ log)
  cnts : Nat → Nat
  buf : Nat → CclBuffer
  tmp : CclBuffer
  tmp_ne : ∀ r, tmp.src ≠ (buf r).src

namespace Halving

section

variable {n : Nat} (H : Halving n)

/-- The segment new rank `v` keeps in step `k`, in the buffer `buf`. -/
abbrev piece (buf : CclBuffer) (k v : Nat) : CclBuffer := buf + tableStart H.cnts H.log (k + 1) v

abbrev len (k v : Nat) : Nat := tableCnt H.cnts H.log (k + 1) v

/-- What new rank `v` exchanges in step `k`. -/
def swap (k v : Nat) : Swap :=
  let dst := H.ranks.real (v ^^^ 2 ^ k)
  ⟨.recv (H.piece H.tmp k v) (H.len k v) dst, H.piece (H.buf (H.ranks.real v)) k (v ^^^ 2 ^ k), dst,
    H.len k (v ^^^ 2 ^ k), dst, H.len k v⟩

/-- What new rank `v` reduces in step `k`. -/
def reduce (k v : Nat) : EntryKind :=
  .reduceLocal (H.piece H.tmp k v) (H.len k v) (H.piece (H.buf (H.ranks.real v)) k v)

/-- Step `k`. -/
def rounds (k : Nat) : List SchedRound :=
  [.ofKinds true (swapKinds true (H.ranks.on (H.swap k))),
    .ofKinds true fun r => (H.ranks.on (H.reduce k) r).toList]

/-- Element `i` of the buffer new rank `v` reduces into. -/
def val {α : Type} (σ : Nat → Mem α) (i v : Nat) : α := σ (H.ranks.real v) ((H.buf (H.ranks.real v)).at i)

theorem piece_apart (r k v w c d : Nat) : PieceApart (H.piece H.tmp k v, c) (H.piece (H.buf r) k w, d) :=
  .inl (H.tmp_ne r)

theorem swap_good (hk : k < H.log) : SwapGood (H.ranks.on (H.swap k)) n := by
  refine Numbering.swapGood_on hk (fun _ _ => rfl) (fun _ _ => rfl) (fun _ _ => rfl) (fun _ _ => rfl) fun v _ =>
    ⟨fun p hp q hq => ?_, forall_mem_nil _⟩
  rw [mem_singleton.mp hp, mem_singleton.mp hq]
  exact H.piece_apart ..

theorem rounds_good (hk : k < H.log) {R : SchedRound} (hR : R ∈ H.rounds k) :
    ∃ kinds, KindsGood kinds n ∧ R = .ofKinds true kinds := by
  rcases mem_pair.mp hR with rfl | rfl
  · exact ⟨_, (H.swap_good hk).kindsGood true, rfl⟩
  · exact ⟨_, H.ranks.kindsGood_on fun _ => rfl, rfl⟩

theorem rounds_idle {r : Nat} (h : H.ranks.new r = none) : (H.rounds k).flatMap (· r) = [] := by
  simp only [rounds, flatMap_cons, flatMap_nil, SchedRound.ofKinds, swapKinds, H.ranks.on_of_new _ h, Option.elim_none,
    Option.toList_none, entriesOf_nil, append_nil]

theorem rounds_real (hv : v < 2 ^ H.log) : (H.rounds k).flatMap (· (H.ranks.real v)) =
    entriesOf true ((H.swap k v).kinds true) ++ entriesOf true [H.reduce k v] := by
  simp only [rounds, flatMap_cons, flatMap_nil, SchedRound.ofKinds, swapKinds, H.ranks.on_real _ hv, Option.elim_some,
    Option.toList_some, append_nil]

variable {α : Type} (op : α → α → α)

/-- **One step**: a rank reduces its partner's data into the segment it keeps. -/
theorem rounds_exec (hk : k < H.log) (σ : Nat → Mem α) (hv : v < 2 ^ H.log)
    (hlo : tableStart H.cnts H.log (k + 1) v ≤ i) (hhi : i < tableEnd H.cnts H.log (k + 1) v) :
    H.val (execRounds op (H.rounds k) σ) i v = op (H.val σ i v) (H.val σ i (v ^^^ 2 ^ k)) := by
  obtain ⟨j, rfl⟩ := Nat.exists_eq_add_of_le hlo
  have hj : j < H.len k v := by
    unfold len tableCnt
    omega
  have hapart := H.piece_apart (H.ranks.real v) k v v (H.len k v) (H.len k v)
  have hgood := H.swap_good hk
  have hown := H.ranks.on_real (H.swap k) hv
  have hpart := H.ranks.on_real (H.swap k) (xor_two_pow_lt hv hk)
  -- the partner sends the segment that the partner's partner keeps
  have hbuf : (H.swap k (v ^^^ 2 ^ k)).buf = H.piece (H.buf (H.ranks.real (v ^^^ 2 ^ k))) k v := by
    simp only [swap, Nat.xor_xor_cancel_right]
  have hcnt : (H.swap k (v ^^^ 2 ^ k)).sendCnt = H.len k v := by
    simp only [swap, Nat.xor_xor_cancel_right]
  have hred : (H.ranks.on (H.reduce k) (H.ranks.real v)).toList = [H.reduce k v] := by
    rw [H.ranks.on_real _ hv, Option.toList_some]
  unfold val
  show SchedRound.exec op _ (SchedRound.exec op _ σ) _ _ = _
  rw [← CclBuffer.add_at, ← CclBuffer.add_at, exec_reduceLocal op true _ hred,
    compReduce_at hj hapart.disjoint]
  have hrecv := hgood.exec_recv_at op true true σ hown hpart rfl hcnt hj
  have hkeep := hgood.exec_recv_of_notMem op true true σ hown hpart rfl hcnt
    (Set.disjoint_right.mp hapart.disjoint (at_mem_region.mpr hj))
  rw [hbuf] at hrecv
  exact congrArg₂ op hkeep hrecv

/-- **The whole reduce-scatter** leaves the result in the segment a rank keeps. -/
theorem run_exec [Std.Commutative op] [Std.Associative op] (σ : Nat → Mem α) (hv : v < 2 ^ H.log)
    (hlo : tableStart H.cnts H.log H.log v ≤ i) (hhi : i < tableEnd H.cnts H.log H.log v) :
    Reduces op (H.val σ i) (Finset.range (2 ^ H.log)) (H.val (execRounds op ((range H.log).flatMap H.rounds) σ) i v) := by
  rw [← block_top hv]
  refine halving_reduces H.cnts (fun k u j => H.val (execRounds op ((range k).flatMap H.rounds) σ) j u)
    (fun k hk u hu j hlo hhi => ?_) le_rfl hv hlo hhi
  rw [range_succ, flatMap_append, flatMap_singleton, execRounds_append]
  exact H.rounds_exec op hk _ hu hlo hhi

end

end Halving

/-! ## Recursive doubling -/

/-- A loop over the masks from step `k` down to the first, and out when there is none left. -/
theorem gather_entries {X : Type} (loop : Nat → X → Sched → Sched) (mask : X → Nat) (head : Nat → Nat → X)
    {E : Nat → List SchedEntry} {K fuel : Nat} (hzero : ∀ x s, loop 0 x s = s)
    (hstop : ∀ fuel x s, mask x = 0 → loop (fuel + 1) x s = s)
    (hstep : ∀ k < K, ∀ fuel recvIdx s, ∃ x s', loop (fuel + 1) (head k recvIdx) s = loop fuel x s' ∧
      s'.entries = s.entries ++ E k ∧ (k = 0 → mask x = 0) ∧ ∀ j, k = j + 1 → ∃ recvIdx', x = head j recvIdx')
    (hk : k < K) (hfuel : k < fuel) (recvIdx : Nat) (s : Sched) :
    (loop fuel (head k recvIdx) s).entries = s.entries ++ (range (k + 1)).reverse.flatMap E := by
  induction k generalizing fuel recvIdx s with
  | zero =>
    obtain ⟨fuel, rfl⟩ := Nat.exists_eq_add_of_le' hfuel
    obtain ⟨x, s', hone, hs', hmask, -⟩ := hstep 0 hk fuel recvIdx s
    have hout : loop fuel x s' = s' := by
      cases fuel with
      | zero => exact hzero x s'
      | succ fuel => exact hstop fuel x s' (hmask rfl)
    rw [hone, hout, hs']
    exact congrArg (_ ++ ·) (append_nil _).symm
  | succ k ih =>
    obtain ⟨fuel, rfl⟩ := Nat.exists_eq_add_of_le' (Nat.zero_lt_of_lt hfuel)
    obtain ⟨x, s', hone, hs', -, hnext⟩ := hstep (k + 1) hk fuel recvIdx s
    obtain ⟨recvIdx', rfl⟩ := hnext k rfl
    rw [hone, ih (Nat.lt_of_succ_lt hk) (Nat.lt_of_succ_lt_succ hfuel), hs', range_succ (n := k + 1), reverse_append,
      reverse_singleton, singleton_append, flatMap_cons, append_assoc]

/-- **Before step `k`** (and after it, at the end) the ranks that are still there have in their segments what the ranks had in
the smallest ones before the first step: whatever held there of every element holds here. -/
theorem doubling_exec {α : Type} {op : α → α → α} {cnts : Nat → Nat} {K : Nat} {round : Nat → SchedRound}
    (val : (Nat → Mem α) → Nat → Nat → α) (there : Nat → Nat → Prop)
    (hthere : ∀ k v, there k v → there (k + 1) v ∧ there (k + 1) (v ^^^ 2 ^ k))
    (hstep : ∀ k < K, ∀ σ, ∀ v < 2 ^ K, there k v → ∀ i,
      (tableStart cnts K (k + 1) v ≤ i → i < tableEnd cnts K (k + 1) v → val ((round k).exec op σ) i v = val σ i v) ∧
      (tableStart cnts K (k + 1) (v ^^^ 2 ^ k) ≤ i → i < tableEnd cnts K (k + 1) (v ^^^ 2 ^ k) →
        val ((round k).exec op σ) i v = val σ i (v ^^^ 2 ^ k)))
    {σ : Nat → Mem α} {Q : Nat → α → Prop}
    (hσ : ∀ v < 2 ^ K, ∀ i, tableStart cnts K K v ≤ i → i < tableEnd cnts K K v → Q i (val σ i v))
    {m : Nat} (hk : k + m = K) (hv : v < 2 ^ K) (h : there k v)
    (hlo : tableStart cnts K k v ≤ i) (hhi : i < tableEnd cnts K k v) :
    Q i (val (execRounds op ((range' k m).reverse.map round) σ) i v) := by
  induction m generalizing k v with
  | zero =>
    obtain rfl : k = K := hk
    exact hσ v hv i hlo hhi
  | succ m ih =>
    have hlt : k < K := by omega
    obtain ⟨hstay, hpartner⟩ := hthere k v h
    rw [range'_succ, reverse_cons, map_append, map_singleton, execRounds_append]
    show Q i (val (SchedRound.exec op _ _) i v)
    have hown := ih (k := k + 1) (by omega) hv hstay
    have hother := ih (k := k + 1) (by omega) (xor_two_pow_lt hv hlt) hpartner
    have hexec := hstep k hlt (execRounds op ((range' (k + 1) m).reverse.map round) σ) v hv h i
    -- the segment is the own half or the partner's
    have hseg := table_halves cnts hlt v
    by_cases hi : tableStart cnts K (k + 1) v ≤ i ∧ i < tableEnd cnts K (k + 1) v
    · rw [hexec.1 hi.1 hi.2]
      exact hown hi.1 hi.2
    · rw [hexec.2 (by omega) (by omega)]
      exact hother (by omega) (by omega)

namespace AllreduceCall

variable (A : AllreduceCall) (cnts : Nat → Nat)

/-- What new rank `v` exchanges in step `k`. -/
def windowSwap (k v : Nat) : Swap :=
  let dst := A.real (v ^^^ 2 ^ k)
  ⟨.recv (A.recvBuf + tableStart cnts A.log (k + 1) (v ^^^ 2 ^ k)) (tableCnt cnts A.log (k + 1) (v ^^^ 2 ^ k)) dst,
    A.recvBuf + tableStart cnts A.log (k + 1) v, dst, tableCnt cnts A.log (k + 1) v,
    dst, tableCnt cnts A.log (k + 1) (v ^^^ 2 ^ k)⟩

/-- Step `k`. -/
def windowRound (sendFirst : Bool) (k : Nat) : SchedRound :=
  .ofKinds true (swapKinds sendFirst (A.onFolded (A.windowSwap cnts k)))

variable {A}

theorem windowSwap_good (hk : k < A.log) : SwapGood (A.onFolded (A.windowSwap cnts k)) A.n := by
  refine Numbering.swapGood_on hk (fun _ _ => rfl) (fun _ _ => rfl) (fun _ _ => rfl) (fun v _ => ?_) fun v _ =>
    ⟨fun p hp q hq => ?_, forall_mem_nil _⟩
  · show tableCnt _ _ _ (_ ^^^ _) = tableCnt _ _ _ _
    rw [Nat.xor_xor_cancel_right]
  · rw [mem_singleton.mp hp, mem_singleton.mp hq]
    have := table_apart cnts A.recvBuf hk (v ^^^ 2 ^ k)
    rwa [Nat.xor_xor_cancel_right] at this

variable {α : Type} (op : α → α → α)

theorem windowRound_exec (sendFirst : Bool) (hk : k < A.log) (σ : Nat → Mem α) (hv : v < 2 ^ A.log) :
    (tableStart cnts A.log (k + 1) v ≤ i → i < tableEnd cnts A.log (k + 1) v →
      (A.windowRound cnts sendFirst k).exec op σ (A.real v) (A.recvBuf.at i) = σ (A.real v) (A.recvBuf.at i)) ∧
    (tableStart cnts A.log (k + 1) (v ^^^ 2 ^ k) ≤ i → i < tableEnd cnts A.log (k + 1) (v ^^^ 2 ^ k) →
      (A.windowRound cnts sendFirst k).exec op σ (A.real v) (A.recvBuf.at i) =
        σ (A.real (v ^^^ 2 ^ k)) (A.recvBuf.at i)) := by
  have hpart := onFolded_real (A.windowSwap cnts k) (xor_two_pow_lt hv hk)
  have hgood := windowSwap_good cnts hk
  refine ⟨fun hlo hhi => ?_, fun hlo hhi => ?_⟩
  · refine hgood.exec_recv_of_notMem op true sendFirst σ (onFolded_real _ hv) hpart rfl rfl fun hm => ?_
    have hseg := table_halves cnts hk v
    have hmem := at_mem_region_add.mp hm
    unfold tableCnt at hmem
    omega
  · obtain ⟨j, rfl⟩ := Nat.exists_eq_add_of_le hlo
    have hj : j < tableCnt cnts A.log (k + 1) (v ^^^ 2 ^ k) := by
      unfold tableCnt
      omega
    rw [← CclBuffer.add_at]
    exact hgood.exec_recv_at op true sendFirst σ (onFolded_real _ hv) hpart rfl rfl hj

variable [Std.Commutative op] [Std.Associative op]

/-- **A reduce-scatter by recursive halving and an allgather by recursive doubling** reduce over the ranks that take
part, if in step `k` of the first a rank reduces its partner's data into the segment it keeps. -/
theorem scatter_gather_reduces {scatter : Nat → List SchedRound} (sendFirst : Bool)
    (hend : ∀ v, tableEnd cnts A.log 0 v = A.count)
    (hstep : ∀ k < A.log, ∀ (σ : Nat → Mem α), ∀ v < 2 ^ A.log, ∀ i, tableStart cnts A.log (k + 1) v ≤ i →
      i < tableEnd cnts A.log (k + 1) v → execRounds op (scatter k) σ (A.real v) (A.recvBuf.at i) =
        op (σ (A.real v) (A.recvBuf.at i)) (σ (A.real (v ^^^ 2 ^ k)) (A.recvBuf.at i))) :
    A.ReducesFolded ((range A.log).flatMap scatter ++ (range A.log).reverse.map (A.windowRound cnts sendFirst)) op := by
  intro σ v hv i hi
  rw [execRounds_append, range_eq_range']
  refine doubling_exec (fun σ i v => σ (A.real v) (A.recvBuf.at i)) (fun _ _ => True)
    (Q := fun i => Reduces op (fun u => σ (A.real u) (A.recvBuf.at i)) (Finset.range (2 ^ A.log)))
    (fun _ _ _ => ⟨trivial, trivial⟩) (fun k hk σ v hv _ i => windowRound_exec cnts op sendFirst hk σ hv)
    (fun u hu j hlo hhi => ?_) (Nat.zero_add A.log) hv trivial (Nat.zero_le i) (by rwa [hend])
  -- the segments before the allgather
  rw [← range_eq_range', ← block_top hu]
  refine halving_reduces cnts (fun k u j => execRounds op ((range k).flatMap scatter) σ (A.real u) (A.recvBuf.at j))
    (fun k hk u hu j hlo hhi => ?_) le_rfl hu hlo hhi
  rw [range_succ, flatMap_append, flatMap_singleton, execRounds_append]
  exact hstep k hk _ u hu j hlo hhi

end AllreduceCall

end OneCcl
