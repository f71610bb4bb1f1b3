import OneCcl.Comm.Placement
import OneCcl.Reduction.Over
import OneCcl.Sched.Buffer

/-!
# Collectives as steps of all ranks

The SYCL collectives for several nodes are made of collectives on the node and between the nodes. Each of those is taken
here as what it is specified to do: a step of the memories of all ranks, in which every rank of a subcommunicator gets its
result in its receive buffer, computed from what the members had in their send buffers before, and nothing else changes.

A call names the subcommunicator by the `Split` it belongs to, so one step is the call of all ranks together.
-/

namespace OneCcl

open Reduction List

variable {α : Type}

abbrev World (α : Type) : Type := Nat → Mem α

/-- Write `cnt` elements to a buffer. -/
def writeAt (b : CclBuffer) (cnt : Nat) (f : Nat → α) (m : Mem α) : Mem α := fun a =>
  if a.1 = b.src ∧ b.offset ≤ a.2 ∧ a.2 < b.offset + cnt then f (a.2 - b.offset) else m a

variable {a : BufSrc × Nat}

theorem writeAt_of_notMem {b : CclBuffer} {cnt : Nat} {f : Nat → α} {m : Mem α}
    (h : a ∉ region b cnt) : writeAt b cnt f m a = m a := if_neg h

theorem writeAt_add_at (b : CclBuffer) (k cnt : Nat) (f : Nat → α) (m : Mem α) (i : Nat) :
    writeAt (b + k) cnt f m (b.at i) = if k ≤ i ∧ i < k + cnt then f (i - k) else m (b.at i) := by
  by_cases h : k ≤ i ∧ i < k + cnt
  · rw [if_pos h]
    refine (if_pos (at_mem_region_add.mpr h)).trans (congrArg f ?_)
    show b.offset + i - (b.offset + k) = i - k
    omega
  · rw [if_neg h]
    exact if_neg fun hc => h (at_mem_region_add.mp hc)

theorem writeAt_at (b : CclBuffer) (cnt : Nat) (f : Nat → α) (m : Mem α) (i : Nat) :
    writeAt b cnt f m (b.at i) = if i < cnt then f i else m (b.at i) := by
  have h := writeAt_add_at b 0 cnt f m i
  simp only [Nat.zero_le, true_and, Nat.zero_add, Nat.sub_zero] at h
  exact h

/-- `sycl_average`, where the reduction is `avg`. -/
def syclAverage (average : Option (Nat → α → α)) (totalRanks : Nat) (buf : Nat → CclBuffer) (cnt : Nat → Nat)
    (w : World α) : World α :=
  match average with
  | none => w
  | some divide => fun r => writeAt (buf r) (cnt r) (fun i => divide totalRanks (w r ((buf r).at i))) (w r)

/-- An element of the result, from the reduction. -/
def averaged (average : Option (Nat → α → α)) (totalRanks : Nat) (x : α) : α :=
  match average with
  | none => x
  | some divide => divide totalRanks x

section

variable {average : Option (Nat → α → α)} {totalRanks : Nat} {buf : Nat → CclBuffer} {cnt : Nat → Nat} {w : World α} {r : Nat}

variable (buf) in
theorem syclAverage_at {i : Nat} (hi : i < cnt r) :
    syclAverage average totalRanks buf cnt w r ((buf r).at i) = averaged average totalRanks (w r ((buf r).at i)) := by
  unfold syclAverage averaged
  cases average with
  | none => rfl
  | some divide => exact (writeAt_at ..).trans (if_pos hi)

theorem syclAverage_of_notMem (ha : a ∉ region (buf r) (cnt r)) : syclAverage average totalRanks buf cnt w r a = w r a := by
  unfold syclAverage
  cases average with
  | none => rfl
  | some divide => exact writeAt_of_notMem ha

end

namespace Split

variable {n : Nat} (S : Split n) (op : α → α → α) (sendBuf recvBuf : Nat → CclBuffer)

/-- Allreduce, on the members of each subcommunicator. -/
def allreduce (count : Nat → Nat) (w : World α) : World α := fun r =>
  writeAt (recvBuf r) (count r)
    (fun i => reduceRange op S.size fun k => w (S.member r k) ((sendBuf (S.member r k)).at i)) (w r)

/-- Reduce-scatter. The last rank gets `rem` elements more. -/
def reduceScatter (recvCount rem : Nat) (w : World α) : World α := fun r =>
  writeAt (recvBuf r) (if S.rank r = S.size - 1 then recvCount + rem else recvCount)
    (fun i => reduceRange op S.size fun k =>
      w (S.member r k) ((sendBuf (S.member r k)).at (S.rank r * recvCount + i))) (w r)

/-- Allgatherv: the block of the `k`-th member goes to `offsets k`. -/
def allgatherv (counts offsets : Nat → Nat) (w : World α) : World α := fun r =>
  (range S.size).foldl
    (fun m k => writeAt (recvBuf r + offsets k) (counts k) (fun i => w (S.member r k) ((sendBuf (S.member r k)).at i)) m) (w r)

/-- Broadcast from the `root`-th member. -/
def broadcast (count root : Nat) (w : World α) : World α := fun r =>
  writeAt (recvBuf r) count (fun i => w (S.member r root) ((sendBuf (S.member r root)).at i)) (w r)

/-! ## The results -/

variable {S op sendBuf recvBuf}

variable {counts offsets : Nat → Nat} {w : World α} {r : Nat}

theorem allgatherv_at (hdisj : ∀ j < S.size, ∀ k < S.size, j ≠ k →
      offsets j + counts j ≤ offsets k ∨ offsets k + counts k ≤ offsets j) {k i : Nat} (hk : k < S.size)
    (hi : i < counts k) : S.allgatherv sendBuf recvBuf counts offsets w r ((recvBuf r).at (offsets k + i)) =
      w (S.member r k) ((sendBuf (S.member r k)).at i) := by
  unfold allgatherv
  have hpast : ∀ m : Mem α, ∀ l : List Nat, (∀ j ∈ l, j < S.size) → k ∉ l →
      l.foldl (fun m k => writeAt (recvBuf r + offsets k) (counts k)
        (fun i => w (S.member r k) ((sendBuf (S.member r k)).at i)) m) m ((recvBuf r).at (offsets k + i)) =
        m ((recvBuf r).at (offsets k + i)) := by
    intro m l hl hkl
    induction l generalizing m with
    | nil => rfl
    | cons j l ih =>
      rw [foldl_cons, ih _ (fun j' hj' => hl j' (mem_cons_of_mem _ hj'))
        (fun h => hkl (mem_cons_of_mem _ h)), writeAt_add_at, if_neg]
      have hne : j ≠ k := fun h => hkl (h ▸ mem_cons_self)
      have := hdisj j (hl j mem_cons_self) k hk hne
      omega
  -- the write of block `k`, and none after it, is what counts
  obtain ⟨d, hd⟩ : ∃ d, S.size = k + 1 + d := ⟨S.size - (k + 1), by omega⟩
  have hsplit : range S.size = range k ++ k :: (range d).map (k + 1 + ·) := by
    rw [hd, range_add, range_succ, append_assoc]
    rfl
  rw [hsplit, foldl_append, foldl_cons, hpast]
  · rw [writeAt_add_at, if_pos ⟨Nat.le_add_right .., by omega⟩, Nat.add_sub_cancel_left]
  · intro j hj
    obtain ⟨j', hj', rfl⟩ := mem_map.mp hj
    have := mem_range.mp hj'
    omega
  · intro hj
    obtain ⟨j', -, hj'⟩ := mem_map.mp hj
    omega

theorem allgatherv_of_notMem (h : ∀ k < S.size, a ∉ region (recvBuf r + offsets k) (counts k)) :
    S.allgatherv sendBuf recvBuf counts offsets w r a = w r a := by
  unfold allgatherv
  have hmem : ∀ k ∈ range S.size, a ∉ region (recvBuf r + offsets k) (counts k) :=
    fun k hk => h k (mem_range.mp hk)
  generalize w r = m
  generalize range S.size = l at hmem
  induction l generalizing m with
  | nil => rfl
  | cons k l ih =>
    rw [foldl_cons, ih _ fun k' hk' => hmem k' (mem_cons_of_mem _ hk')]
    exact writeAt_of_notMem (hmem k mem_cons_self)

end Split

/-- **A reduction over the nodes of reductions on each node is the reduction over all ranks.** -/
theorem Placement.reduce_grid {op : α → α → α} [Std.Commutative op] [Std.Associative op] {P : Placement} {r : Nat}
    (hr : r < P.size) (f : Nat → α) :
    (reduceRange op P.nodes fun j => reduceRange op P.ppn fun k => f (P.nodeComm.member (P.r2rComm.member r j) k)) =
      reduceRange op P.size f := by
  have hmem : ∀ j < P.nodes, P.r2rComm.member r j < P.size := P.r2rComm.member_lt r hr
  -- the ranks on the node of the `j`-th member
  let grp : Nat → Finset Nat := fun j => (Finset.range P.ppn).image (P.nodeComm.member (P.r2rComm.member r j))
  have hgrp : ∀ j ∈ Finset.range P.nodes, Reduces op f (grp j)
      (reduceRange op P.ppn fun k => f (P.nodeComm.member (P.r2rComm.member r j) k)) := by
    intro j hj
    refine Reduces.image (reduces_range _ P.ppn_pos) fun k hk k' hk' h => ?_
    exact P.nodeComm.member_injective (hmem j (Finset.mem_range.mp hj)) (Finset.mem_range.mp hk) (Finset.mem_range.mp hk') h
  have hnode : ∀ j < P.nodes, ∀ x ∈ grp j, P.node x = P.node (P.r2rComm.member r j) := by
    intro j hj x hx
    obtain ⟨k, hk, rfl⟩ := Finset.mem_image.mp hx
    exact Placement.node_nodeMember (hmem j hj) (Finset.mem_range.mp hk)
  have hdisj : ∀ j ∈ Finset.range P.nodes, ∀ j' ∈ Finset.range P.nodes, j ≠ j' → Disjoint (grp j) (grp j') := by
    intro j hj j' hj' hne
    rw [Finset.mem_range] at hj hj'
    refine Finset.disjoint_left.mpr fun x hx hx' => hne ?_
    exact Placement.node_r2rMember_injective hr hj hj' ((hnode j hj x hx).symm.trans (hnode j' hj' x hx'))
  have hall : (Finset.range P.nodes).biUnion grp = Finset.range P.size := by
    ext x
    rw [Finset.mem_biUnion, Finset.mem_range]
    constructor
    · rintro ⟨j, hj, hx⟩
      obtain ⟨k, hk, rfl⟩ := Finset.mem_image.mp hx
      exact P.nodeComm.member_lt _ (hmem j (Finset.mem_range.mp hj)) k (Finset.mem_range.mp hk)
    · intro hx
      obtain ⟨j, hj, k, hk, rfl⟩ := Placement.cover hr hx
      exact ⟨j, Finset.mem_range.mpr hj, Finset.mem_image.mpr ⟨k, Finset.mem_range.mpr hk, rfl⟩⟩
  refine Reduces.eq_reduceRange P.size_pos ?_
  rw [← hall]
  exact Reduces.biUnion (reduces_range _ P.nodes_pos) hgrp hdisj

end OneCcl
