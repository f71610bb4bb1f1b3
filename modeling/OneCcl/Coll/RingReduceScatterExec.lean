import OneCcl.Coll.RingReduceScatterRounds

/-!
# What the ring reduce_scatter computes

A reduction that is delayed by one chunk computes what it would have computed at once, since the exchange beside
it is about other data (`RingCall.groups_exec`). So one invariant covers both ways of working: after `t` times every
chunk a rank has received holds the reduction over the ranks the chunk has passed, and a rank's own data is as it
was wherever it is still to be used (`RingCall.Holds`).

`ring_reduce_scatter_block_iff` says when the building block does what it is for: always, except that a call in
place with nothing to reduce throws, since the temporary buffer would be empty.
-/

namespace OneCcl

open Async Reduction List Parts SchedRound PieceApart

open CclBuffer (add_at)

namespace RingCall

variable {A : RingCall} {α : Type} (op : α → α → α)

/-! ## Reductions made at once -/

variable (A) in
/-- Time `t` with the reduction made at once. -/
def step (t : Nat) : List SchedRound :=
  [.ofKinds true (swapKinds true (A.swap true t)), .ofKinds true (A.reduce t)]

variable {r t m j : Nat}

theorem reduce_exec (hr : r < A.n) (b : Bool) (t : Nat) (σ : Nat → Mem α) :
    (ofKinds b (A.reduce t)).exec op σ r =
      compReduce op (A.other r + A.placeOffset r (t + A.cc)) (A.placeSize r (t + A.cc))
        (A.recvBuf + A.placeOffset r (t + A.cc)) (σ r) := by
  have hw := A.within r 0
  rw [exec_reduceLocal op b σ (reduce_eq hr 0 t), hw.reduceIn, hw.reduceInout]

theorem swap_exec (hr : r < A.n) (ht : t < A.times) (b : Bool) (σ : Nat → Mem α) :
    (ofKinds b (swapKinds true (A.swap true t))).exec op σ r =
      store ((A.stepBufs r (t / A.cc)).rbuf + A.placeOffset r (t + A.cc))
        (load ((A.stepBufs (ringPrev A.n r) (t / A.cc)).sbuf + A.placeOffset (ringPrev A.n r) t)
          (A.placeSize (ringPrev A.n r) t) (σ (ringPrev A.n r))) (σ r) :=
  (swap_good ht true).exec op b true σ (if_pos hr) (if_pos (ringPrev_lt hr))

theorem swap_idle (hr : ¬ r < A.n) (plain b : Bool) (t : Nat) (σ : Nat → Mem α) :
    (ofKinds b (swapKinds true (A.swap plain t))).exec op σ r = σ r := by
  refine exec_idle op b σ ?_
  rw [swapKinds, swap, if_neg hr]
  rfl

theorem direct_exec (ht : t < A.times) (σ : Nat → Mem α) :
    (ofKinds true (swapKinds true (A.swap false t))).exec op σ = execRounds op (A.step t) σ := by
  funext r
  show _ = (ofKinds true _).exec op ((ofKinds true _).exec op σ) r
  by_cases hr : r < A.n
  · rw [reduce_exec op hr, swap_exec op hr ht,
      (swap_good ht false).exec op true true σ (if_pos hr) (if_pos (ringPrev_lt hr))]
    show EntryKind.run op _ (.recvReduce _ _ _ _ _) (σ r) = _
    unfold stepBufs rsBufs tmpBuf other
    by_cases h : A.sendBuf r = A.recvBuf
    · simp only [if_pos h]
      rfl
    · simp only [if_neg h]
      rfl
  · rw [swap_idle op hr, exec_idle op true _ (if_neg hr), swap_idle op hr]

/-- **A delayed reduction**: an exchange and the reduction of the chunk before it can change places. -/
theorem delayed_exec (hcc1 : 1 < A.cc) (ht : t + 1 < A.times) (σ : Nat → Mem α) :
    (ofKinds true (A.reduce t)).exec op ((ofKinds false (swapKinds true (A.swap true (t + 1)))).exec op σ) =
      (ofKinds true (swapKinds true (A.swap true (t + 1)))).exec op ((ofKinds true (A.reduce t)).exec op σ) := by
  funext r
  by_cases hr : r < A.n
  · have hp := ringPrev_lt hr
    have hlt := place_lt_recv hr ht
    have hw := fun q => A.within q ((t + 1) / A.cc)
    rw [reduce_exec op hr, swap_exec op hr ht, swap_exec op hr ht, reduce_exec op hr, reduce_exec op hp]
    -- the neighbour sends something else than it reduces
    have hsent := (touches_compReduce op (A.other (ringPrev A.n r) + A.placeOffset (ringPrev A.n r) (t + A.cc))
        (A.recvBuf + A.placeOffset (ringPrev A.n r) (t + A.cc)) (A.placeSize (ringPrev A.n r) (t + A.cc))).blind
      (sees_load ((A.stepBufs (ringPrev A.n r) ((t + 1) / A.cc)).sbuf +
        A.placeOffset (ringPrev A.n r) (t + 1)) (A.placeSize (ringPrev A.n r) (t + 1)))
      (disjoint (place_pieces hp (.inr rfl) (hw _).sbuf (by omega) (by omega) (by omega)))
      (σ (ringPrev A.n r))
    rw [hsent]
    have hsize := (place_ringPrev hr ht).2
    refine (Touches.commute (touches_store _ (((length_load ..).trans hsize).le)) (touches_compReduce op _ _ _)
      ?_ ?_ ?_ (σ r)).symm
    · exact disjoint (place_pieces hr (hw r).rbuf (.inr rfl) hlt (by omega) (by omega))
    · refine Set.disjoint_union_right.mpr ⟨?_, ?_⟩
      · exact disjoint (place_pieces hr (hw r).rbuf (.inl rfl) hlt (by omega) (by omega))
      · exact disjoint (place_pieces hr (hw r).rbuf (.inr rfl) hlt (by omega) (by omega))
    · exact disjoint (place_pieces hr (hw r).rbuf (.inr rfl) hlt (by omega) (by omega))
  · rw [exec_idle op true _ (if_neg hr), swap_idle op hr, swap_idle op hr,
      exec_idle op true _ (if_neg hr)]

/-- Delayed by one chunk up to a time, with the last reduction made, or at once: the same. -/
theorem delayed_run (hcc1 : 1 < A.cc) (σ : Nat → Mem α) (hm : m + 1 ≤ A.times) :
    execRounds op ((range (m + 1)).flatMap A.group ++ [.ofKinds true (A.reduce m)]) σ =
      execRounds op ((range (m + 1)).flatMap A.step) σ := by
  induction m with
  | zero =>
    rw [Nat.zero_add, range_one, flatMap_singleton, flatMap_singleton, group, if_pos hcc1,
      if_pos rfl]
    rfl
  | succ m ih =>
    have hgroup : A.group (m + 1) =
        [.ofKinds false (swapKinds true (A.swap true (m + 1))), .ofKinds true (A.reduce m)] := by
      rw [group, if_pos hcc1, if_neg (Nat.succ_ne_zero m), Nat.add_sub_cancel]
    have ih := ih (by omega)
    rw [execRounds_append] at ih
    rw [range_succ, flatMap_append, flatMap_append, flatMap_singleton, flatMap_singleton,
      hgroup, execRounds_append, execRounds_append, execRounds_append, ← ih]
    show exec op _ (exec op _ (exec op _ _)) = exec op _ (exec op _ (exec op _ _))
    rw [delayed_exec op hcc1 (by omega)]

/-- **What the groups compute**: exchange and reduction, time after time. -/
theorem groups_exec (hn : 2 ≤ A.n) (σ : Nat → Mem α) :
    execRounds op A.groups.flatten σ = execRounds op ((range A.times).flatMap A.step) σ := by
  have hpos : 0 < A.times := Nat.mul_pos (by omega) A.cc_pos
  rw [groups, flatten_append, flatten_singleton, ← flatMap_def, tail]
  by_cases hcc1 : 1 < A.cc
  · rw [if_pos hcc1]
    obtain ⟨m, hm⟩ : ∃ m, A.times = m + 1 := ⟨A.times - 1, by omega⟩
    rw [hm, Nat.add_sub_cancel]
    exact delayed_run op hcc1 σ hm.symm.le
  · rw [if_neg hcc1, append_nil]
    refine execRounds_flatMap_congr op (fun t ht σ => ?_) σ
    rw [group, if_neg hcc1]
    exact direct_exec op (mem_range.mp ht) σ

/-! ## The invariant of the ring -/

variable (A) in
/-- **After `t` times**: a chunk that was received holds the reduction over the ranks it has passed, and a rank's
own data is untouched where nothing was received. -/
structure Holds [Std.Commutative op] [Std.Associative op] (mem : Nat → Mem α) (t : Nat) (σ : Nat → Mem α) :
    Prop where
  received : ∀ r < A.n, ∀ u, A.cc ≤ u → u < t + A.cc → ∀ j < A.placeSize r u,
    Reduces op (fun q => mem q ((A.sendBuf q).at (A.placeOffset r u + j))) (ringTo A.n (u / A.cc) r)
      (σ r (A.recvBuf.at (A.placeOffset r u + j)))
  own : ∀ r < A.n, ∀ u < A.n * A.cc, (u < A.cc ∨ t + A.cc ≤ u) → ∀ j < A.placeSize r u,
    σ r ((A.sendBuf r).at (A.placeOffset r u + j)) = mem r ((A.sendBuf r).at (A.placeOffset r u + j))

theorem sendBuf_mine (r : Nat) : A.Mine r (A.sendBuf r) := by
  by_cases h : A.sendBuf r = A.recvBuf
  · exact .inr h
  · exact .inl (if_neg h).symm

/-- A time changes a rank's buffers at the place it receives only. -/
theorem step_frame (hr : r < A.n) (ht : t < A.times) (σ : Nat → Mem α) {x : CclBuffer} (hx : A.Mine r x) {u : Nat}
    (hu : u < A.n * A.cc) (hne : u ≠ t + A.cc) (hj : j < A.placeSize r u) :
    execRounds op (A.step t) σ r (x.at (A.placeOffset r u + j)) = σ r (x.at (A.placeOffset r u + j)) := by
  have hlt := place_lt_recv hr ht
  have hw := A.within r (t / A.cc)
  have hout : ∀ y, A.Mine r y → x.at (A.placeOffset r u + j) ∉
      region (y + A.placeOffset r (t + A.cc)) (A.placeSize r (t + A.cc)) := by
    intro y hy
    rw [← add_at]
    exact Set.disjoint_left.mp (disjoint (place_pieces hr hx hy hu hlt hne)) (at_mem_region.mpr hj)
  show exec op _ (exec op _ σ) r _ = _
  rw [reduce_exec op hr, compReduce_of_notMem (hout _ (.inr rfl)), swap_exec op hr ht,
    (place_ringPrev hr ht).2]
  exact store_load_of_notMem (hout _ hw.rbuf) _ _ _

/-- There it leaves the rank's own data, reduced with what the left neighbour sent. -/
theorem step_at [Std.Commutative op] (hr : r < A.n) (ht : t < A.times) (σ : Nat → Mem α)
    (hj : j < A.placeSize r (t + A.cc)) :
    execRounds op (A.step t) σ r (A.recvBuf.at (A.placeOffset r (t + A.cc) + j)) =
      op (σ r ((A.sendBuf r).at (A.placeOffset r (t + A.cc) + j)))
        (σ (ringPrev A.n r)
          ((A.stepBufs (ringPrev A.n r) (t / A.cc)).sbuf.at (A.placeOffset (ringPrev A.n r) t + j))) := by
  have hlt := place_lt_recv hr ht
  have hle := place_le hr hlt
  have hd := disjoint ((apart_other hr).parts_of_apart hle hle)
  show exec op _ (exec op _ σ) r _ = _
  rw [reduce_exec op hr, ← add_at, compReduce_at hj hd, swap_exec op hr ht,
    (place_ringPrev hr ht).2, ← add_at]
  have hmem : ∀ x : CclBuffer, (x + A.placeOffset r (t + A.cc)).at j ∈
      region (x + A.placeOffset r (t + A.cc)) (A.placeSize r (t + A.cc)) := fun x => at_mem_region.mpr hj
  unfold other stepBufs rsBufs tmpBuf at *
  by_cases h : A.sendBuf r = A.recvBuf
  · -- in place the data is in `recv_buf` and the message in the temporary buffer
    simp only [if_pos h] at hd ⊢
    rw [store_load_of_notMem (Set.disjoint_right.mp hd (hmem A.recvBuf)), store_load_at hj, h, add_at,
      add_at]
  · have hcomm : ∀ x y, op x y = op y x := Std.Commutative.comm
    simp only [if_neg h] at hd ⊢
    rw [store_load_of_notMem (Set.disjoint_left.mp hd (hmem (A.sendBuf r))), store_load_at hj,
      hcomm, add_at, add_at]

section

variable [Std.Commutative op] [Std.Associative op] {mem σ : Nat → Mem α}

/-- **What a rank sends** is the reduction over the ranks its chunk has passed. -/
theorem Holds.sent (h : A.Holds op mem t σ) (hr : r < A.n) (ht : t < A.n * A.cc) (hj : j < A.placeSize r t) :
    Reduces op (fun q => mem q ((A.sendBuf q).at (A.placeOffset r t + j))) (ringTo A.n (t / A.cc) r)
      (σ r ((A.stepBufs r (t / A.cc)).sbuf.at (A.placeOffset r t + j))) := by
  by_cases h0 : t < A.cc
  · -- the first block is the rank's own data
    have hs : (A.stepBufs r (t / A.cc)).sbuf = A.sendBuf r := by
      unfold stepBufs rsBufs
      rw [Nat.div_eq_of_lt h0]
      split
      next he => exact he.symm
      next => rfl
    rw [hs, Nat.div_eq_of_lt h0, h.own r hr t ht (.inl h0) j hj]
    exact reduces_singleton (fun q => mem q ((A.sendBuf q).at (A.placeOffset r t + j))) r
  · have hs : (A.stepBufs r (t / A.cc)).sbuf = A.recvBuf := by
      have hne : t / A.cc ≠ 0 := fun he => h0 ((Nat.div_eq_zero_iff_lt A.cc_pos).mp he)
      unfold stepBufs rsBufs
      rw [if_neg hne]
      split <;> rfl
    rw [hs]
    exact h.received r hr t (not_lt.mp h0) (Nat.lt_add_of_pos_right A.cc_pos) j hj

/-- **One time** keeps the invariant. -/
theorem Holds.step (ht : t < A.times) (h : A.Holds op mem t σ) :
    A.Holds op mem (t + 1) (execRounds op (A.step t) σ) := by
  refine ⟨fun r hr u hu hut j hj => ?_, fun r hr u hu hut j hj => ?_⟩
  · have hlt := place_lt_recv hr ht
    rcases lt_or_ge u (t + A.cc) with hlt' | hge
    · rw [step_frame op hr ht σ (.inr rfl) (by omega) (by omega) hj]
      exact h.received r hr u hu hlt' j hj
    · obtain rfl : u = t + A.cc := by omega
      have hp := ringPrev_lt hr
      obtain ⟨hoff, hsize⟩ := place_ringPrev hr ht
      have hidx : t / A.cc < A.n - 1 := div_lt_of_place ht
      have hmsg := h.sent op hp (by omega) (hsize.symm ▸ hj)
      rw [step_at op hr ht σ hj, h.own r hr _ hlt (.inr le_rfl) j hj, Nat.add_div_right t A.cc_pos]
      refine Reduces.ring_step hr (by omega) ?_
      rw [← hoff]
      exact hmsg
  · rw [step_frame op hr ht σ (sendBuf_mine r) hu (by omega) hj]
    exact h.own r hr u hu (by omega) j hj

variable (mem) in
/-- **A whole run** keeps the invariant. -/
theorem holds_run (hm : m ≤ A.times) : A.Holds op mem m (execRounds op ((range m).flatMap A.step) mem) := by
  induction m with
  | zero => exact ⟨fun r hr u hu hut => absurd hut (by omega), fun r hr u hu hut j hj => rfl⟩
  | succ m ih =>
    rw [range_succ, flatMap_append, flatMap_singleton, execRounds_append]
    exact (ih (by omega)).step op (by omega)

/-- **The ring leaves at rank `r` the reduction of block `r`.** -/
theorem groups_block (hn : 2 ≤ A.n) (hr : r < A.n) {i : Nat} (hlo : offset A.count A.n r ≤ i)
    (hhi : i < offset A.count A.n r + size A.count A.n r) :
    execRounds op A.groups.flatten mem r (A.recvBuf.at i) = reduceRange op A.n fun q => mem q ((A.sendBuf q).at i) := by
  rw [groups_exec op hn]
  have hholds := holds_run op mem (Nat.le_refl A.times)
  -- the element is in a chunk of the block, and the block is at the last places
  obtain ⟨c, hc, h1, h2⟩ := exists_part (size A.count A.n r) A.cc_pos
    (show i - offset A.count A.n r < _ by omega)
  obtain ⟨hoff, hsize⟩ := A.place_time r (A.n - 1) hc
  rw [blockOffset, blockSize, ringBlock_last hr] at hoff
  rw [blockSize, ringBlock_last hr] at hsize
  have hend := hholds.received r hr (A.times + c)
    ((Nat.le_mul_of_pos_left A.cc (by omega)).trans (Nat.le_add_right ..)) (by omega)
    (i - offset A.count A.n r - offset (size A.count A.n r) A.cc c) (by rw [hsize]; omega)
  rw [hoff, time_div hc, ringTo_top hr] at hend
  rw [show offset A.count A.n r + offset (size A.count A.n r) A.cc c +
      (i - offset A.count A.n r - offset (size A.count A.n r) A.cc c) = i by omega] at hend
  exact hend.eq_reduceRange (by omega)

end

end RingCall

/-! ## The contract -/

/-- **What the building block is for**: all ranks build their schedules, every run of them completes and leaves in
block `r` of rank `r` the reduction over all ranks, which does not depend on the chunks, and no data is sent
before its local reduction is over. -/
def ReduceScatterBlockRight {α : Type} (op : α → α → α) (env : RsEnv) (comm : CclComm) (sendBuf : Nat → CclBuffer)
    (recvBuf : CclBuffer) (count dtypeSize tag : Nat) (eager : Nat → Nat → Bool) (mem : Nat → Mem α) : Prop :=
  ∃ sched : Nat → Sched,
    (∀ r < comm.size, cclCollBuildReduceScatterBlock env (sendBuf r) recvBuf count dtypeSize comm r (.new 0) =
      some (sched r)) ∧
    ((schedNet op comm.size tag eager sched).Completes mem fun s =>
      ∀ r < comm.size, ∀ i, offset count comm.size r ≤ i →
        i < offset count comm.size r + size count comm.size r →
        s.mem r (recvBuf.at i) = reduceRange op comm.size fun q => mem q ((sendBuf q).at i)) ∧
    ReducedBeforeSent op comm.size tag eager sched mem

section

variable {α : Type} (op : α → α → α) [Std.Commutative op] [Std.Associative op] (env : RsEnv) (comm : CclComm)
  (sendBuf : Nat → CclBuffer) {recvBuf : CclBuffer} {count : Nat}
  (hbufs : ∀ r < comm.size, CollBufs (sendBuf r) recvBuf count) (dtypeSize tag : Nat) (eager : Nat → Nat → Bool)
  (mem : Nat → Mem α)

include hbufs

theorem reduceScatterBlock_ring (hn : 2 ≤ comm.size) (hpos : ∀ r < comm.size, sendBuf r = recvBuf → 0 < count) :
    ReduceScatterBlockRight op env comm sendBuf recvBuf count dtypeSize tag eager mem := by
  let A := ringCall env dtypeSize comm hbufs
  have hbuild := fun r hr => cclCollBuildReduceScatterBlock_entries env dtypeSize comm hbufs hn hr (hpos r hr)
  obtain ⟨sched, hsched, hrun, -⟩ := contract_of_rounds hbuild A.groups_good
    (fun r => raceFree_of_groups (flatten_groupsAt _ r) (A.groups_grouped r) op tag) eager mem
  have hentries : ∀ r < comm.size, (sched r).entries = (groupsAt A.groups r).flatten := by
    intro r hr
    obtain ⟨s, hs, he⟩ := hbuild r hr
    rw [hsched r hr] at hs
    rw [Option.some.inj hs, he, ← flatten_groupsAt]
    rfl
  refine ⟨sched, hsched, hrun.imp fun s hs r hr i hlo hhi => ?_, ?_⟩
  · rw [hs r]
    exact RingCall.groups_block (A := A) op hn hr hlo hhi
  · exact reducedBeforeSent_of_groups hentries (fun r _ => A.groups_grouped r) (fun r hr => RingCall.groups_late hr) op
      tag eager mem

omit [Std.Commutative op] [Std.Associative op] in
theorem reduceScatterBlock_one (hn : comm.size = 1) :
    ReduceScatterBlockRight op env comm sendBuf recvBuf count dtypeSize tag eager mem := by
  have hbuild : ∀ r < comm.size,
      cclCollBuildReduceScatterBlock env (sendBuf r) recvBuf count dtypeSize comm r (.new 0) =
        some (copyIn (sendBuf r) recvBuf count (.new 0)) := fun r hr =>
    (if_neg (by rw [(hbufs r hr).toBool]; exact Bool.noConfusion)).trans (if_pos hn)
  obtain ⟨sched, hsched, hrun, hlocal⟩ := copyIn_contract op hbuild tag eager mem
  refine ⟨sched, hsched, hrun.imp fun s hs r hr i _ hi => ?_, ?_⟩
  · have hle := offset_add_size_le count hr
    rw [hs r hr i (by omega), hn]
    obtain rfl : r = 0 := by omega
    rfl
  · -- nothing is sent
    intro s _ r hr i j e e' p buf cnt dst _ _ hj hk
    have := hlocal r hr e' (mem_of_getElem? hj)
    rw [hk] at this
    cases this

/-- **When the ring reduce_scatter block is right**: exactly when there is something to reduce, or one rank only, or
no rank in place. In place with a count of zero a rank asks for an empty temporary buffer, and that throws. -/
theorem ring_reduce_scatter_block_iff : ReduceScatterBlockRight op env comm sendBuf recvBuf count dtypeSize tag eager mem ↔
      0 < count ∨ comm.size = 1 ∨ ∀ r < comm.size, sendBuf r ≠ recvBuf := by
  constructor
  · rintro ⟨sched, hsched, -⟩
    by_contra hnot
    obtain ⟨hcount, hsize, hplace⟩ := not_or.mp hnot |>.imp_right not_or.mp
    obtain ⟨r, hr, hin⟩ : ∃ r < comm.size, sendBuf r = recvBuf := by
      by_contra hall
      exact hplace fun r hr hin => hall ⟨r, hr, hin⟩
    have hnone : cclCollBuildReduceScatterBlock env (sendBuf r) recvBuf count dtypeSize comm r (.new 0) = none := by
      unfold cclCollBuildReduceScatterBlock
      rw [(hbufs r hr).toBool, if_neg Bool.noConfusion, if_neg hsize, if_pos hin, Sched.allocBuffer, if_neg hcount]
      rfl
    rw [hsched r hr] at hnone
    cases hnone
  · intro h
    by_cases hn : comm.size = 1
    · exact reduceScatterBlock_one op env comm sendBuf hbufs dtypeSize tag eager mem hn
    · have hpos := comm.size_pos
      refine reduceScatterBlock_ring op env comm sendBuf hbufs dtypeSize tag eager mem (by omega) fun r hr hin => ?_
      rcases h with h | h | h
      · exact h
      · exact absurd h hn
      · exact absurd hin (h r hr)

end

/-- Three ranks in place with four elements, and blocks cut into two chunks. -/
theorem ring_reduce_scatter_block_three :
    ReduceScatterBlockRight (α := Nat) (· + ·) ⟨2, 1⟩ ⟨3, by decide, by decide⟩ (fun _ => ⟨.user 0, 0⟩) ⟨.user 0, 0⟩ 4 4 0
      (fun _ _ => false) fun q _ => q + 1 := by
  have hbufs : ∀ r < 3, CollBufs ⟨.user 0, 0⟩ ⟨.user 0, 0⟩ 4 := fun _ _ => ⟨⟨0, rfl⟩, ⟨0, rfl⟩, .inl rfl⟩
  exact (ring_reduce_scatter_block_iff (α := Nat) (· + ·) ⟨2, 1⟩ ⟨3, by decide, by decide⟩ (fun _ => ⟨.user 0, 0⟩) hbufs 4 0
    (fun _ _ => false) fun q _ => q + 1).mpr (.inl (by decide))

/-- Two ranks in place with nothing to reduce: a schedule is not even built. -/
theorem ring_reduce_scatter_block_empty :
    ¬ ReduceScatterBlockRight (α := Nat) (· + ·) ⟨1, 65536⟩ ⟨2, by decide, by decide⟩ (fun _ => ⟨.user 0, 0⟩) ⟨.user 0, 0⟩
      0 4 0 (fun _ _ => false) fun q _ => q := by
  rintro ⟨sched, hsched, -⟩
  have hnone : cclCollBuildReduceScatterBlock ⟨1, 65536⟩ ⟨.user 0, 0⟩ ⟨.user 0, 0⟩ 0 4 ⟨2, by decide, by decide⟩ 0
      (.new 0) = none := rfl
  rw [hsched 0 (by decide)] at hnone
  cases hnone

end OneCcl
