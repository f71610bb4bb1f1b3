import OneCcl.Coll.NreduceAllreduce

/-!
# What the nreduce allreduce computes

Within a segment the slots of the temporary buffer are used by one message each: in the reduce-scatter the slot of
a sender, beside the rank's own; in the allgather the place of a sender, which the rank's own slot stays clear of.
So all messages of a phase may run beside each other (`Segment.groups_kindGroups`), and the barrier between the
phases is all that keeps the two uses of the buffer apart.

`nreduce_allreduce_correct` is the contract.
-/

namespace OneCcl

open Async List Reduction Parts SchedRound

open CclBuffer (add_at)

variable {q q' r idx' j i off : Nat} {x x' : Swap} {k : EntryKind} {a : BufSrc × Nat} {segs : List Nat}

/-! ## Slots and parts -/

variable {g n : Nat}

theorem slot_apart (buf : CclBuffer) (c : Nat) (hne : q ≠ q') : PieceApart (buf + c * q, c) (buf + c * q', c) := by
  refine .inr ?_
  simp only [CclBuffer.add_offset]
  rcases hne.lt_or_gt with h | h
  · have := Nat.mul_le_mul_left c (show q + 1 ≤ q' from h)
    rw [Nat.mul_succ] at this
    omega
  · have := Nat.mul_le_mul_left c (show q' + 1 ≤ q from h)
    rw [Nat.mul_succ] at this
    omega

theorem parts_or (hq : q < n) (hq' : q' < n) (hne : q ≠ q') : offset g n q + size g n q ≤ offset g n q' ∨
      offset g n q' + size g n q' ≤ offset g n q := by
  rcases hne.lt_or_gt with h | h
  · exact .inl (ordered _ h hq')
  · exact .inr (ordered _ h hq)

theorem part_apart (buf : CclBuffer) (hq : q < n) (hq' : q' < n) (hne : q ≠ q') :
    PieceApart (buf + offset g n q, size g n q) (buf + offset g n q', size g n q') :=
  .parts (.inl rfl) (offset_add_size_le _ hq) (offset_add_size_le _ hq') (parts_or hq hq' hne)

/-- A rank's own slot is clear of the places of the other parts: it is the place of its own part, except for the
last rank, whose slot lies behind all of them. -/
theorem slot_part_apart (buf : CclBuffer) (hr : r < n) (hq : q < n) (hne : r ≠ q) :
    PieceApart (buf + size g n r * r, size g n r) (buf + offset g n q, size g n q) := by
  rcases (show r + 1 ≤ n from hr).lt_or_eq with hlt | hlast
  · have hown : size g n r * r = offset g n r := by rw [size_of_lt hlt, offset]
    rw [hown]
    exact part_apart buf hr hq hne
  · have h1 := ordered g (show q < r by omega) hr
    have h2 : offset g n r ≤ size g n r * r := by
      refine Nat.mul_le_mul_right r ?_
      rw [size]
      split <;> omega
    refine .inr (.inr (.inl ?_))
    simp only [CclBuffer.add_offset]
    omega

/-! ## Loops over the distances -/

/-- A loop over the distances whose swaps may run beside each other. -/
structure DistancesGood (n : Nat) (swap : Nat → Nat → Option Swap) : Prop where
  good : ∀ idx, 0 < idx → idx < n → SwapGood (swap idx) n
  beside : ∀ r idx idx' x x', 0 < idx → idx < n → 0 < idx' → idx' < n → swap idx r = some x → swap idx' r = some x' →
    x.receive.Apart (.send x'.buf x'.sendCnt x'.dst) ∧ (idx ≠ idx' → x.receive.Beside x'.receive)

theorem mem_swapKinds {swap : Nat → Option Swap} (h : k ∈ swapKinds true swap r) :
    ∃ x, swap r = some x ∧ (k = .send x.buf x.sendCnt x.dst ∨ k = x.receive) := by
  unfold swapKinds at h
  cases hx : swap r with
  | none =>
    rw [hx] at h
    cases h
  | some x =>
    rw [hx] at h
    refine ⟨x, rfl, ?_⟩
    rcases mem_cons.mp h with h | h
    · exact .inl h
    · exact .inr (mem_singleton.mp h)

variable {swap : Nat → Nat → Option Swap}

theorem DistancesGood.kindsGood (h : DistancesGood n swap) : ∀ K ∈ distances n swap, KindsGood K n := by
  intro K hK
  obtain ⟨idx, hidx, rfl⟩ := mem_map.mp hK
  have := mem_range'_1.mp hidx
  exact (h.good idx (by omega) (by omega)).kindsGood true

theorem DistancesGood.pairwise (h : DistancesGood n swap) (r : Nat) :
    ((distances n swap).flatMap (· r)).Pairwise EntryKind.Beside := by
  have hbounds : ∀ idx ∈ range' 1 (n - 1), 0 < idx ∧ idx < n := by
    intro idx hidx
    have := mem_range'_1.mp hidx
    omega
  rw [distances, flatMap_map]
  refine pairwise_flatMap.mpr ⟨fun idx hidx => ?_, ?_⟩
  · exact (((h.good idx (hbounds idx hidx).1 (hbounds idx hidx).2).kindsGood true).apart r).imp .apart
  · refine (pairwise_lt_range' ..).imp_of_mem fun {idx idx'} hidx hidx' hlt k hk k' hk' => ?_
    obtain ⟨x, hx, hk⟩ := mem_swapKinds hk
    obtain ⟨x', hx', hk'⟩ := mem_swapKinds hk'
    have h1 := h.beside r idx idx' x x' (hbounds idx hidx).1 (hbounds idx hidx).2 (hbounds idx' hidx').1
      (hbounds idx' hidx').2 hx hx'
    have h2 := h.beside r idx' idx x' x (hbounds idx' hidx').1 (hbounds idx' hidx').2 (hbounds idx hidx).1
      (hbounds idx hidx).2 hx' hx
    rcases hk with rfl | rfl <;> rcases hk' with rfl | rfl
    · exact .apart ⟨forall_mem_nil _, fun p hp q hq => absurd hq not_mem_nil⟩
    · exact .apart h2.1.symm
    · exact .apart h1.1
    · exact h1.2 hlt.ne

/-- An invariant of the loop, by what each distance does. -/
theorem distances_exec {α : Type} (op : α → α → α) {I : Nat → (Nat → Mem α) → Prop} (hn : 0 < n) {σ : Nat → Mem α}
    (h0 : I 0 σ) (hstep : ∀ m, m + 1 < n → ∀ σ', I m σ' →
      I (m + 1) ((ofKinds true (swapKinds true (swap (m + 1)))).exec op σ')) :
    I (n - 1) (execKinds op (distances n swap) σ) := by
  have hloop : ∀ m, m < n → I m (execKinds op ((range' 1 m).map fun idx => swapKinds true (swap idx)) σ) := by
    intro m hm
    induction m with
    | zero => exact h0
    | succ m ih =>
      rw [range'_1_concat, map_append, execKinds_append, map_singleton, Nat.add_comm 1 m]
      exact hstep m hm _ (ih (by omega))
  exact hloop (n - 1) (by omega)

namespace Segment

variable {A : Segment} (hA : A.Ok)

include hA

/-! ## What runs together -/

section

variable (hr : r < A.n)

include hr

theorem Ok.tmp_ne_send : nreduceTmp.src ≠ (A.sendBuf r).src := by
  obtain ⟨j, hj⟩ := (hA r hr).send_user
  rw [hj]
  exact nofun

theorem slot_reduce_apart (hne : q ≠ r) : PieceApart (nreduceTmp + A.len r * q, A.len r) (A.own r, A.len r) := by
  unfold own
  split
  · exact slot_apart nreduceTmp _ hne
  · exact .inl (hA.tmp_ne_recv hr)

theorem reduce_send_apart (hq : q < A.n) (hne : q ≠ r) : PieceApart (A.own r, A.len r)
      (A.sendBuf r + A.off q, A.len q) := by
  unfold own
  split
  · exact .inl (hA.tmp_ne_send hr)
  · exact .parts ((hA r hr).apart.imp Eq.symm .symm) (offset_add_size_le _ hr) (offset_add_size_le _ hq)
      (parts_or hr hq hne.symm)

variable {idx : Nat}

theorem scatter_beside (h0 : 0 < idx) (hidx : idx < A.n) (h0' : 0 < idx') (hidx' : idx' < A.n)
    (hx : A.scatter idx r = some x) (hx' : A.scatter idx' r = some x') :
    x.receive.Apart (.send x'.buf x'.sendCnt x'.dst) ∧ (idx ≠ idx' → x.receive.Beside x'.receive) := by
  rw [scatter, if_pos hr] at hx hx'
  cases hx
  cases hx'
  refine ⟨⟨fun p hp q hq => ?_, forall_mem_nil _⟩, fun hne => ?_⟩
  · rw [mem_singleton.mp hq]
    rcases mem_pair.mp hp with rfl | rfl
    · exact reduce_send_apart hA hr (rotDown_lt hr hidx') (rotDown_ne h0' hidx')
    · exact .inl (hA.tmp_ne_send hr)
  · exact .merge (slot_apart nreduceTmp _ fun he => hne (rotUp_inj hidx hidx' he))
      (slot_reduce_apart hA hr (rotUp_ne h0 hidx)) (slot_reduce_apart hA hr (rotUp_ne h0' hidx'))

theorem gather_beside (hb : A.buffering = true) (h0 : 0 < idx) (hidx : idx < A.n) (hidx' : idx' < A.n)
    (hx : A.gather idx r = some x) (hx' : A.gather idx' r = some x') :
    x.receive.Apart (.send x'.buf x'.sendCnt x'.dst) ∧ (idx ≠ idx' → x.receive.Beside x'.receive) := by
  rw [gather, if_pos hr] at hx hx'
  cases hx
  cases hx'
  have hq := rotDown_lt hr hidx
  have hq' := rotDown_lt hr hidx'
  refine ⟨⟨fun p hp q hm => ?_, forall_mem_nil _⟩, fun hne => .apart ⟨fun p hp q hm => ?_, fun p hp =>
    absurd hp not_mem_nil⟩⟩
  · rw [mem_singleton.mp hm, own, if_pos hb]
    rcases mem_pair.mp hp with rfl | rfl
    · exact (slot_part_apart nreduceTmp hr hq (rotDown_ne h0 hidx).symm).symm
    · exact .inl (hA.tmp_ne_recv hr).symm
  · have hsrc : rotDown A.n r idx ≠ rotDown A.n r idx' := fun he => hne (rotDown_inj hidx hidx' he)
    rcases mem_cons.mp hp with rfl | hp <;> rcases mem_cons.mp hm with rfl | hm
    · exact part_apart nreduceTmp hq hq' hsrc
    · rw [mem_singleton.mp hm]
      exact .inl (hA.tmp_ne_recv hr)
    · rw [mem_singleton.mp hp]
      exact .inl (hA.tmp_ne_recv hr).symm
    · rw [mem_singleton.mp hp, mem_singleton.mp hm]
      exact part_apart A.recvBuf hq hq' hsrc

end

/-! ## The groups are good -/

theorem scatter_good : DistancesGood A.n A.scatter := by
  refine ⟨fun idx h0 hidx => swapGood_ite (fun _ _ => rfl) (fun r hr => ?_) (fun r hr => ?_) fun r hr => ?_,
    fun r idx idx' x x' h0 hidx h0' hidx' hx hx' => ?_⟩
  · exact ⟨rotDown_lt hr hidx, rotUp_rotDown hr hidx, rfl⟩
  · exact ⟨rotUp_lt hr hidx, rotDown_rotUp hr hidx, congrArg A.len (rotDown_rotUp hr hidx)⟩
  · exact (scatter_beside hA hr h0 hidx h0 hidx (if_pos hr) (if_pos hr)).1
  · have hr := (Option.ite_none_right_eq_some.mp hx).1
    exact scatter_beside hA hr h0 hidx h0' hidx' hx hx'

theorem gather_good (hb : A.buffering = true) : DistancesGood A.n A.gather := by
  refine ⟨fun idx h0 hidx => swapGood_ite (fun _ _ => rfl) (fun r hr => ?_) (fun r hr => ?_) fun r hr => ?_,
    fun r idx idx' x x' h0 hidx _ hidx' hx hx' => ?_⟩
  · exact ⟨rotUp_lt hr hidx, rotDown_rotUp hr hidx, congrArg A.len (rotDown_rotUp hr hidx)⟩
  · exact ⟨rotDown_lt hr hidx, rotUp_rotDown hr hidx, rfl⟩
  · exact (gather_beside hA hr hb h0 hidx hidx (if_pos hr) (if_pos hr)).1
  · have hr := (Option.ite_none_right_eq_some.mp hx).1
    exact gather_beside hA hr hb h0 hidx hidx' hx hx'

omit hA in
theorem copyIn_good : KindsGood A.copyIn A.n := kindsGood_ite (fun _ hr => hr.1) fun _ => rfl

omit hA in
theorem copyOut_good : KindsGood A.copyOut A.n := kindsGood_ite (fun _ hr => hr) fun _ => rfl

/-- **The groups of a segment**: everybody agrees on the messages, and what runs together may. -/
theorem groups_kindGroups : KindGroups A.n A.groups := by
  have hsingle : ∀ {K : KindsRound}, KindsGood K A.n → (∀ K' ∈ [K], KindsGood K' A.n) ∧
      ∀ r, (([K] : List KindsRound).flatMap (· r)).Pairwise EntryKind.Beside := by
    intro K hK
    refine ⟨fun K' hK' => mem_singleton.mp hK' ▸ hK, fun r => ?_⟩
    rw [flatMap_singleton]
    exact (hK.apart r).imp .apart
  have hall : ∀ G ∈ A.groups, (∀ K ∈ G, KindsGood K A.n) ∧ ∀ r, (G.flatMap (· r)).Pairwise EntryKind.Beside := by
    intro G hG
    rcases mem_append.mp hG with hG | hG
    · rcases mem_pair.mp hG with rfl | rfl
      · exact hsingle copyIn_good
      · have hgood := scatter_good hA
        exact ⟨hgood.kindsGood, hgood.pairwise⟩
    · split at hG
      next hb =>
        rcases mem_pair.mp hG with rfl | rfl
        · exact hsingle copyOut_good
        · have hgood := gather_good hA hb
          exact ⟨hgood.kindsGood, hgood.pairwise⟩
      next =>
        rw [mem_singleton.mp hG]
        refine ⟨fun K hK => ?_, agvGroup_beside⟩
        obtain ⟨idx, hidx, rfl⟩ := mem_map.mp hK
        have := mem_range'_1.mp hidx
        exact agvKinds_good (by omega) (by omega)
  exact ⟨fun G hG => (hall G hG).1, fun G hG => (hall G hG).2⟩

/-! ## The reduce-scatter -/

variable {α : Type} (op : α → α → α)

omit hA in
theorem copyIn_reduce (hr : r < A.n) (hj : j < A.len r) (σ : Nat → Mem α) :
    execKinds op [A.copyIn] σ r ((A.own r).at j) = σ r ((A.sendBuf r).at (A.off r + j)) := by
  show exec op _ σ r _ = _
  by_cases h : A.sendBuf r ≠ A.recvBuf ∨ A.buffering = true
  · rw [exec_copy op true σ (if_pos ⟨hr, h⟩), compCopy_at hj, add_at]
  · obtain ⟨heq, hb⟩ := not_or.mp h
    rw [exec_idle op true σ (if_neg fun hc => h hc.2), own, if_neg hb, add_at, not_not.mp heq]

theorem copyIn_send (hr : r < A.n) (hq : q < A.n) (hne : q ≠ r) (hj : j < A.len q) (σ : Nat → Mem α) :
    execKinds op [A.copyIn] σ r ((A.sendBuf r).at (A.off q + j)) = σ r ((A.sendBuf r).at (A.off q + j)) := by
  refine copyIn_good.roomy.exec_frame op true σ fun k hk p hp => ?_
  unfold copyIn at hk
  obtain ⟨-, hk⟩ := mem_ite_nil_right.mp hk
  rw [mem_singleton.mp hk] at hp
  rw [mem_singleton.mp hp, ← add_at]
  exact Set.disjoint_right.mp (reduce_send_apart hA hr hq hne).disjoint (at_mem_region.mpr hj)

variable {idx : Nat}

/-- The exchange at a distance reduces what the sender has of a rank's part, -/
theorem scatter_reduce (h0 : 0 < idx) (hidx : idx < A.n) (hr : r < A.n) (hj : j < A.len r) (σ : Nat → Mem α) :
    (ofKinds true (swapKinds true (A.scatter idx))).exec op σ r ((A.own r).at j) =
      op (σ r ((A.own r).at j)) (σ (rotUp A.n r idx) ((A.sendBuf (rotUp A.n r idx)).at (A.off r + j))) := by
  have hsrc := rotUp_lt hr hidx
  have hback := rotDown_rotUp hr hidx
  rw [((scatter_good hA).good idx h0 hidx).exec_recvReduce_at op true true σ (if_pos hr) (if_pos hsrc) rfl
    (by show A.len (rotDown A.n (rotUp A.n r idx) idx) = _; rw [hback])
    (slot_reduce_apart hA hr (rotUp_ne h0 hidx)).disjoint hj]
  show op _ (σ (rotUp A.n r idx) ((A.sendBuf _ + A.off (rotDown A.n (rotUp A.n r idx) idx)).at j)) = _
  rw [hback, add_at]

/-- and leaves alone what the others want from it. -/
theorem scatter_send (h0 : 0 < idx) (hidx : idx < A.n) (hr : r < A.n) (hq : q < A.n) (hne : q ≠ r)
    (hj : j < A.len q) (σ : Nat → Mem α) :
    (ofKinds true (swapKinds true (A.scatter idx))).exec op σ r ((A.sendBuf r).at (A.off q + j)) =
      σ r ((A.sendBuf r).at (A.off q + j)) := by
  refine (((scatter_good hA).good idx h0 hidx).kindsGood true).roomy.exec_frame op true σ fun k hk p hp => ?_
  obtain ⟨x, hx, hk⟩ := mem_swapKinds hk
  rw [scatter, if_pos hr] at hx
  cases hx
  rw [← add_at]
  rcases hk with rfl | rfl
  · cases hp
  · rcases mem_pair.mp hp with rfl | rfl
    · exact Set.disjoint_right.mp (reduce_send_apart hA hr hq hne).disjoint (at_mem_region.mpr hj)
    · have hapart : PieceApart (nreduceTmp + A.len r * rotUp A.n r idx, A.len r)
          (A.sendBuf r + A.off q, A.len q) := .inl (hA.tmp_ne_send hr)
      exact Set.disjoint_right.mp hapart.disjoint (at_mem_region.mpr hj)

/-- **After the reduce-scatter a rank has the total of its part.** -/
theorem scatter_exec [Std.Commutative op] [Std.Associative op] (hr : r < A.n) (hj : j < A.len r)
    (σ : Nat → Mem α) : execKinds op (A.copyIn :: distances A.n A.scatter) σ r ((A.own r).at j) =
      reduceRange op A.n fun q => σ q ((A.sendBuf q).at (A.off r + j)) := by
  have hn : 0 < A.n := Nat.zero_lt_of_lt hr
  -- what a rank has reduced so far, and that it still has what the others want from it
  let I : Nat → (Nat → Mem α) → Prop := fun m σ' =>
    (∀ r < A.n, ∀ j < A.len r, Reduces op (fun q => σ q ((A.sendBuf q).at (A.off r + j))) (rotTo A.n r m)
      (σ' r ((A.own r).at j))) ∧
    ∀ r < A.n, ∀ q < A.n, q ≠ r → ∀ j < A.len q,
      σ' r ((A.sendBuf r).at (A.off q + j)) = σ r ((A.sendBuf r).at (A.off q + j))
  have h0 : I 0 (execKinds op [A.copyIn] σ) := by
    refine ⟨fun r hr j hj => ?_, fun r hr q hq hne j hj => copyIn_send hA op hr hq hne hj σ⟩
    rw [copyIn_reduce op hr hj σ]
    exact reduces_singleton (fun q => σ q ((A.sendBuf q).at (A.off r + j))) r
  have hstep : ∀ m, m + 1 < A.n → ∀ σ', I m σ' → I (m + 1)
      ((ofKinds true (swapKinds true (A.scatter (m + 1)))).exec op σ') := by
    intro m hm σ' ⟨hred, hsend⟩
    refine ⟨fun r hr j hj => ?_, fun r hr q hq hne j hj => ?_⟩
    · rw [scatter_reduce hA op (Nat.succ_pos m) hm hr hj,
        hsend _ (rotUp_lt hr hm) r hr (rotUp_ne (Nat.succ_pos m) hm).symm j hj]
      exact (hred r hr j hj).rot_step hr hm
    · rw [scatter_send hA op (Nat.succ_pos m) hm hr hq hne hj]
      exact hsend r hr q hq hne j hj
  have hlast := (distances_exec op hn h0 hstep).1 r hr j hj
  rw [rotTo_top hr, ← execKinds_append] at hlast
  exact hlast.eq_reduceRange hn

/-! ## The allgather with buffering -/

section

variable (hb : A.buffering = true)

include hb

theorem reduce_notMem (hr : r < A.n) (hq : q < A.n) (hj : j < A.len r) :
    (A.own r).at j ∉ region (A.recvBuf + A.off q) (A.len q) ∧
      (q ≠ r → (A.own r).at j ∉ region (nreduceTmp + A.off q) (A.len q)) := by
  rw [own, if_pos hb]
  have hrecv : PieceApart (nreduceTmp + A.len r * r, A.len r) (A.recvBuf + A.off q, A.len q) :=
    .inl (hA.tmp_ne_recv hr)
  exact ⟨Set.disjoint_left.mp hrecv.disjoint (at_mem_region.mpr hj), fun hne =>
    Set.disjoint_left.mp (slot_part_apart nreduceTmp hr hq hne.symm).disjoint (at_mem_region.mpr hj)⟩

/-- The exchange at a distance stores the sender's part, -/
theorem gather_part (h0 : 0 < idx) (hidx : idx < A.n) (hr : r < A.n)
    (hj : j < A.len (rotDown A.n r idx)) (σ : Nat → Mem α) :
    (ofKinds true (swapKinds true (A.gather idx))).exec op σ r (A.recvBuf.at (A.off (rotDown A.n r idx) + j)) =
      σ (rotDown A.n r idx) ((A.own (rotDown A.n r idx)).at j) := by
  rw [((gather_good hA hb).good idx h0 hidx).exec op true true σ (if_pos hr) (if_pos (rotDown_lt hr hidx)),
    ← add_at]
  show compCopy _ _ _ (store _ _ _) _ = _
  rw [compCopy_at hj, store_load_at hj]

/-- and nothing else but the place in the temporary buffer it comes through. -/
theorem gather_frame (h0 : 0 < idx) (hidx : idx < A.n) (hr : r < A.n) (σ : Nat → Mem α)
    (hrecv : a ∉ region (A.recvBuf + A.off (rotDown A.n r idx)) (A.len (rotDown A.n r idx)))
    (htmp : a ∉ region (nreduceTmp + A.off (rotDown A.n r idx)) (A.len (rotDown A.n r idx))) :
    (ofKinds true (swapKinds true (A.gather idx))).exec op σ r a = σ r a := by
  refine (((gather_good hA hb).good idx h0 hidx).kindsGood true).roomy.exec_frame op true σ fun k hk p hp => ?_
  obtain ⟨x, hx, hk⟩ := mem_swapKinds hk
  rw [gather, if_pos hr] at hx
  cases hx
  rcases hk with rfl | rfl
  · cases hp
  · rcases mem_pair.mp hp with rfl | rfl
    · exact htmp
    · exact hrecv

/-- **After the allgather with buffering a rank has every part as its owner reduced it.** -/
theorem gather_exec (hr : r < A.n) (hq : q < A.n) (hj : j < A.len q) (σ : Nat → Mem α) :
    execKinds op (A.copyOut :: distances A.n A.gather) σ r
        (A.recvBuf.at (A.off q + j)) = σ q ((A.own q).at j) := by
  have hn : 0 < A.n := Nat.zero_lt_of_lt hr
  have hself : ∀ r, rotDown A.n r 0 = r := fun r => by rw [rotDown, if_pos (Nat.zero_le _), Nat.sub_zero]
  -- the parts a rank has so far, and that it keeps its own for the others
  let I : Nat → (Nat → Mem α) → Prop := fun m σ' =>
    (∀ r < A.n, ∀ k ≤ m, ∀ j < A.len (rotDown A.n r k), σ' r (A.recvBuf.at (A.off (rotDown A.n r k) + j)) =
      σ (rotDown A.n r k) ((A.own (rotDown A.n r k)).at j)) ∧
    ∀ r < A.n, ∀ j < A.len r, σ' r ((A.own r).at j) = σ r ((A.own r).at j)
  have h0 : I 0 (execKinds op [A.copyOut] σ) := by
    have hexec : ∀ r < A.n, execKinds op [A.copyOut] σ r = compCopy (A.own r) (A.recvBuf + A.off r) (A.len r) (σ r) :=
      fun r hr => exec_copy op true σ (if_pos hr)
    refine ⟨fun r hr k hk j hj => ?_, fun r hr j hj => ?_⟩
    · obtain rfl : k = 0 := by omega
      rw [hself] at hj ⊢
      rw [hexec r hr, ← add_at, compCopy_at hj]
    · rw [hexec r hr, compCopy_of_notMem (reduce_notMem hA hb hr hr hj).1]
  have hstep : ∀ m, m + 1 < A.n → ∀ σ', I m σ' → I (m + 1)
      ((ofKinds true (swapKinds true (A.gather (m + 1)))).exec op σ') := by
    rintro m hm σ' ⟨hparts, hown⟩
    refine ⟨fun r hr k hk j hj => ?_, fun r hr j hj => ?_⟩
    · rcases hk.lt_or_eq with hlt | rfl
      · have hne : rotDown A.n r k ≠ rotDown A.n r (m + 1) := fun he =>
          absurd (rotDown_inj (by omega) hm he) (by omega)
        have hapart := part_apart (g := A.g) A.recvBuf (rotDown_lt hr (by omega : k < A.n)) (rotDown_lt hr hm) hne
        have htmp : PieceApart (A.recvBuf + A.off (rotDown A.n r k), A.len (rotDown A.n r k))
            (nreduceTmp + A.off (rotDown A.n r (m + 1)), A.len (rotDown A.n r (m + 1))) :=
          .inl (hA.tmp_ne_recv hr).symm
        rw [gather_frame hA op hb (Nat.succ_pos m) hm hr σ'
          (add_at .. ▸ Set.disjoint_left.mp hapart.disjoint (at_mem_region.mpr hj))
          (add_at .. ▸ Set.disjoint_left.mp htmp.disjoint (at_mem_region.mpr hj))]
        exact hparts r hr k (by omega) j hj
      · rw [gather_part hA op hb (Nat.succ_pos m) hm hr hj]
        exact hown _ (rotDown_lt hr hm) j hj
    · have hsrc := rotDown_lt hr hm
      rw [gather_frame hA op hb (Nat.succ_pos m) hm hr σ' (reduce_notMem hA hb hr hsrc hj).1
        ((reduce_notMem hA hb hr hsrc hj).2 (rotDown_ne (Nat.succ_pos m) hm))]
      exact hown r hr j hj
  have hlast := (distances_exec op hn h0 hstep).1 r hr
  obtain ⟨k, hk, rfl⟩ := exists_rotDown hr hq
  exact hlast k (by omega) j hj

end

/-! ## One segment -/

omit hA in
theorem agvGroup_parts_exec (hb : A.buffering = false) (hr : r < A.n) (hq : q < A.n) (hj : j < A.len q)
    (σ : Nat → Mem α) : execKinds op (agvGroup A.recvBuf (size A.g A.n) A.n) σ r (A.recvBuf.at (A.off q + j)) =
      σ q ((A.own q).at j) := by
  rw [own, hb, if_neg Bool.false_ne_true, add_at, off, ← agvOffset_parts hq]
  exact agvGroup_exec op σ hr hq hj

/-- **A segment leaves its total at every rank.** -/
theorem groups_exec [Std.Commutative op] [Std.Associative op] (hr : r < A.n) (hi : i < A.g) (σ : Nat → Mem α) :
    execKinds op A.groups.flatten σ r (A.recvBuf.at i) =
      reduceRange op A.n fun q => σ q ((A.sendBuf q).at i) := by
  obtain ⟨q, hq, hle, hlt⟩ := exists_part _ (Nat.zero_lt_of_lt hr) hi
  obtain ⟨j, rfl⟩ := Nat.exists_eq_add_of_le hle
  have hj : j < A.len q := Nat.lt_of_add_lt_add_left hlt
  rw [groups, flatten_append, execKinds_append, flatten_cons, flatten_singleton]
  rw [← scatter_exec hA op hq hj σ]
  by_cases hb : A.buffering = true
  · rw [if_pos hb, flatten_cons, flatten_singleton]
    exact gather_exec hA op hb hr hq hj _
  · rw [if_neg hb, flatten_singleton]
    exact agvGroup_parts_exec op (Bool.eq_false_of_not_eq_true hb) hr hq hj _

omit hA in
/-- What a segment writes is in the temporary buffer, or a part of the result. -/
theorem groups_writes {K : KindsRound} (hK : K ∈ A.groups.flatten)
    (hk : k ∈ K r) {p : CclBuffer × Nat} (hp : p ∈ k.writes) :
    p.1.src = nreduceTmp.src ∨ ∃ q < A.n, p = (A.recvBuf + A.off q, A.len q) := by
  have hreduce : r < A.n → (A.own r).src = nreduceTmp.src ∨ ∃ q < A.n,
      (A.own r, A.len r) = (A.recvBuf + A.off q, A.len q) := by
    intro hr
    unfold own
    split
    · exact .inl rfl
    · exact .inr ⟨r, hr, rfl⟩
  have hswap : ∀ {swap : Nat → Nat → Option Swap}, K ∈ distances A.n swap → ∃ idx < A.n, ∃ x, swap idx r = some x ∧
      p ∈ x.receive.writes := by
    intro swap hK
    obtain ⟨idx, hidx, rfl⟩ := mem_map.mp hK
    have := mem_range'_1.mp hidx
    obtain ⟨x, hx, rfl | rfl⟩ := mem_swapKinds hk
    · cases hp
    · exact ⟨idx, by omega, x, hx, hp⟩
  rw [groups, flatten_append, flatten_cons, flatten_singleton, singleton_append] at hK
  rcases mem_append.mp hK with hK | hK
  · rcases mem_cons.mp hK with rfl | hK
    · unfold copyIn at hk
      obtain ⟨hr, hk⟩ := mem_ite_nil_right.mp hk
      rw [mem_singleton.mp hk] at hp
      rw [mem_singleton.mp hp]
      exact hreduce hr.1
    · obtain ⟨idx, -, x, hx, hp⟩ := hswap hK
      unfold scatter at hx
      split at hx
      next hr =>
        cases hx
        rcases mem_pair.mp hp with rfl | rfl
        · exact hreduce hr
        · exact .inl rfl
      next => cases hx
  · split at hK
    · rw [flatten_cons, flatten_singleton, singleton_append] at hK
      rcases mem_cons.mp hK with rfl | hK
      · unfold copyOut at hk
        obtain ⟨hr, hk⟩ := mem_ite_nil_right.mp hk
        rw [mem_singleton.mp hk] at hp
        exact .inr ⟨r, hr, mem_singleton.mp hp⟩
      · obtain ⟨idx, hidx, x, hx, hp⟩ := hswap hK
        unfold gather at hx
        split at hx
        next hr =>
          cases hx
          rcases mem_cons.mp hp with rfl | hp
          · exact .inl rfl
          · exact .inr ⟨_, rotDown_lt hr hidx, mem_singleton.mp hp⟩
        next => cases hx
    · rw [flatten_singleton] at hK
      obtain ⟨idx, hidx, rfl⟩ := mem_map.mp hK
      have := mem_range'_1.mp hidx
      obtain ⟨hr, rfl | rfl⟩ := mem_agvKinds hk
      · cases hp
      · have hsrc := rotDown_lt hr (show idx < A.n by omega)
        exact .inr ⟨_, hsrc, by rw [mem_singleton.mp hp, agvOffset_parts hsrc]⟩

theorem groups_frame (htmp : a.1 ≠ nreduceTmp.src) (hrecv : a ∉ region A.recvBuf A.g) (σ : Nat → Mem α) :
    execKinds op A.groups.flatten σ r a = σ r a := by
  refine execKinds_frame (groups_kindGroups hA).kindsGood op σ fun K hK k hk p hp ha => ?_
  rcases groups_writes hK hk hp with hsrc | ⟨q, hq, rfl⟩
  · exact htmp (ha.1.trans hsrc)
  · obtain ⟨j, hj, rfl⟩ := exists_at_of_mem_region ha
    rw [add_at] at hrecv
    have hle : A.off q + A.len q ≤ A.g := offset_add_size_le _ hq
    exact hrecv (at_mem_region.mpr (by omega))

/-! ## All segments -/

theorem allGroups_kindGroups (hle : off + segs.sum ≤ A.g) : KindGroups A.n (A.allGroups off segs) := by
  induction segs generalizing off with
  | nil => exact ⟨forall_mem_nil _, forall_mem_nil _⟩
  | cons g gs ih =>
    rw [sum_cons] at hle
    exact (groups_kindGroups (hA.cut (by omega))).append (ih (by omega))

/-- **The segments from an offset on leave their totals at every rank**, and what lies before them as it is. -/
theorem allGroups_exec [Std.Commutative op] [Std.Associative op] (hle : off + segs.sum ≤ A.g) (hr : r < A.n)
    (σ : Nat → Mem α) :
    (i < off → execKinds op (A.allGroups off segs).flatten σ r (A.recvBuf.at i) = σ r (A.recvBuf.at i)) ∧
      (off ≤ i → i < off + segs.sum → execKinds op (A.allGroups off segs).flatten σ r (A.recvBuf.at i) =
        reduceRange op A.n fun q => σ q ((A.sendBuf q).at i)) := by
  induction segs generalizing off σ with
  | nil => exact ⟨fun _ => rfl, fun h1 h2 => absurd h2 (by rw [sum_nil]; omega)⟩
  | cons g gs ih =>
    rw [sum_cons] at hle ⊢
    have hseg : (A.cut off g).Ok := hA.cut (by omega)
    have hrest := ih (show off + g + gs.sum ≤ A.g by omega) (execKinds op (A.cut off g).groups.flatten σ)
    rw [allGroups, flatten_append, execKinds_append]
    refine ⟨fun hi => ?_, fun h1 h2 => ?_⟩
    · rw [hrest.1 (by omega)]
      refine groups_frame hseg op (hA.tmp_ne_recv hr).symm (fun ha => ?_) σ
      exact absurd (at_mem_region_add.mp ha).1 (by omega)
    · by_cases hi : i < off + g
      · obtain ⟨j, rfl⟩ := Nat.exists_eq_add_of_le h1
        rw [hrest.1 hi, ← add_at]
        refine (groups_exec hseg op hr (show j < g by omega) σ).trans ?_
        exact congrArg (reduceRange op A.n) (funext fun q => congrArg (σ q) (add_at ..))
      · rw [hrest.2 (by omega) (by omega)]
        -- the data of the later segments is still there
        refine reduceRange_congr (Nat.zero_lt_of_lt hr) fun q hq => ?_
        refine groups_frame hseg op (hA.tmp_ne_send hq).symm (fun ha => ?_) σ
        rcases (hA q hq).apart with heq | hapart
        · rw [heq] at ha
          exact absurd (at_mem_region_add.mp ha).2 hi
        · obtain ⟨j, hj, he⟩ := exists_at_of_mem_region ha
          have hj : j < g := hj
          rw [show ((A.cut off g).recvBuf.at j) = A.recvBuf.at (off + j) from add_at ..] at he
          refine Set.disjoint_left.mp hapart.disjoint (at_mem_region.mpr (show i < A.g by omega)) ?_
          rw [he]
          exact at_mem_region.mpr (by omega)

end Segment

/-! ## The contract -/

/-- **The nreduce allreduce is correct**: at every size, count, segment size and buffering mode, in place or not,
every run of the schedules completes and leaves the reduction of all data at every rank, and whenever a receive is
posted, everything before it that uses the memory it will write is done. -/
theorem nreduce_allreduce_correct {α : Type} (op : α → α → α) [Std.Commutative op] [Std.Associative op]
    (env : NreduceEnv) (comm : CclComm) {sendBuf : Nat → CclBuffer} {recvBuf : CclBuffer} {count dtypeSize : Nat}
    (hdtype : 0 < dtypeSize) (hbufs : ∀ r < comm.size, CollBufs (sendBuf r) recvBuf count)
    (tag : Nat) (eager : Nat → Nat → Bool) (mem : Nat → Mem α) : ∃ sched : Nat → Sched,
      (∀ r < comm.size, cclCollBuildNreduceAllreduce env (sendBuf r) recvBuf count dtypeSize comm r (.new 0) =
        some (sched r)) ∧
      ((schedNet op comm.size tag eager sched).Completes mem fun s => ∀ r < comm.size, ∀ i < count,
        s.mem r (recvBuf.at i) = reduceRange op comm.size fun q => mem q ((sendBuf q).at i)) ∧
      LandsClear op comm.size tag eager sched mem := by
  rcases Nat.eq_zero_or_pos count with rfl | hcount
  · -- nothing to do
    refine ⟨fun _ => .new 0, fun r _ => if_pos rfl, (contract_of_nothing op tag eager mem).imp fun s _ r _ i hi =>
      absurd hi (Nat.not_lt_zero i), landsClear_of_local (fun r _ e he => absurd he not_mem_nil) op tag eager mem⟩
  rcases lt_or_ge 1 comm.size with hn | hone
  · obtain ⟨segs, hsum, -, hbuild⟩ := cclCollBuildNreduceAllreduce_entries env hdtype comm hn hcount hbufs
    have hall : Segment.Ok ⟨env, sendBuf, recvBuf, count, comm.size⟩ := hbufs
    have hle : 0 + segs.sum ≤ count := by omega
    obtain ⟨sched, hsched, hrun, -, hclear⟩ := contract_of_kindGroups hbuild (Segment.allGroups_kindGroups hall hle) op
      tag eager mem
    refine ⟨sched, hsched, hrun.imp fun s hs r hr i hi => ?_, hclear⟩
    rw [hs r]
    exact (Segment.allGroups_exec hall op hle hr mem).2 (Nat.zero_le i) (by omega)
  · -- one rank alone copies, without a barrier
    have hsize : comm.size = 1 := le_antisymm hone comm.size_pos
    let sched : Nat → Sched := fun r =>
      if sendBuf r = recvBuf then .new 0 else (Sched.new 0).create (.copy (sendBuf r) recvBuf count)
    have hbuild : ∀ r < comm.size, cclCollBuildNreduceAllreduce env (sendBuf r) recvBuf count dtypeSize comm r (.new 0) =
        some (sched r) := by
      intro r _
      unfold cclCollBuildNreduceAllreduce
      rw [if_neg hcount.ne', if_pos hsize]
      simp only [decide_eq_true_eq, sched]
    have hentries : ∀ r < comm.size, (sched r).entries = entriesOf false (copyKinds sendBuf recvBuf count comm.size r) := by
      intro r hr
      by_cases h : sendBuf r = recvBuf
      · rw [copyKinds, if_neg fun hc => hc.1 h]
        simp only [sched, if_pos h]
        rfl
      · rw [copyKinds, if_pos ⟨h, hr⟩]
        simp only [sched, if_neg h]
        rfl
    obtain ⟨sched, hsched, hrun, hlocal⟩ := copy_contract op false hbuild hentries tag eager mem
    refine ⟨sched, hsched, hrun.imp fun s hs r hr i hi => ?_, landsClear_of_local hlocal op tag eager mem⟩
    rw [hs r hr i hi, hsize, show r = 0 by omega]
    rfl

/-- Three ranks, the last of them in place, that have `q + 1` in each of seven elements of four bytes, in segments of
two elements at most and with buffering: all end with `6`. -/
theorem nreduce_allreduce_three : ∃ sched : Nat → Sched,
      (∀ r < 3, cclCollBuildNreduceAllreduce ⟨true, some 8, true⟩ (if r < 2 then ⟨.user 0, 0⟩ else ⟨.user 1, 0⟩)
        ⟨.user 1, 0⟩ 7 4 ⟨3, by decide, by decide⟩ r (.new 0) = some (sched r)) ∧
      (schedNet (· + ·) 3 0 (fun _ _ => false) sched).Completes (fun q _ => q + 1) fun s =>
        ∀ r < 3, ∀ i < 7, s.mem r (CclBuffer.at ⟨.user 1, 0⟩ i) = 6 := by
  obtain ⟨sched, hsched, hrun, -⟩ := nreduce_allreduce_correct (α := Nat) (· + ·) ⟨true, some 8, true⟩
    ⟨3, by decide, by decide⟩ (show 0 < 4 by decide)
    (fun r _ => collBufs_mixed 2 7 r) 0 (fun _ _ => false) fun q _ => q + 1
  exact ⟨sched, hsched, hrun⟩

end OneCcl
