import OneCcl.Coll.ScatterRing

/-!
# What scatter and ring allgather compute

Correct data travels along the tree and round the ring as long as every rank that sends on has what it received in
the buffer it sends from. `Forwards` says when that is so: the relative ranks from `1` up to the last but one are in
place, and what the last rank sends to the root does no harm there.
-/

namespace OneCcl

open Async List Reduction SchedRound

variable {k v t m r i n b : Nat} {a : BufSrc × Nat}

/-- Every rank that sends on has what it received in the buffer it sends from, and the root is not spoilt by the last
rank: it keeps its data apart, or the last rank has the right data for it, or nothing at all. -/
structure Forwards (sendBuf : Nat → CclBuffer) (recvBuf : CclBuffer) (nbytes : Nat) (comm : CclComm) (root : Nat) :
    Prop where
  mid : ∀ v, 0 < v → v + 1 < comm.size → sendBuf (rotUp comm.size v root) = recvBuf
  last : sendBuf root ≠ recvBuf ∨ sendBuf (rotUp comm.size (comm.size - 1) root) = recvBuf ∨ nbytes ≤ 1

namespace BcastCall

variable {A : BcastCall}

/-! ## The rounds are good -/

theorem scatterKind_recv (hhalf : v % 2 ^ (k + 1) = 2 ^ k) (hlt : v * A.scatterSize < A.nbytes) :
    A.scatterKind k v =
      some (.recv (A.recvBuf + v * A.scatterSize) (A.nbytes - v * A.scatterSize) (A.rank (v - 2 ^ k))) := by
  rw [scatterKind, if_pos hhalf, if_pos hlt]

theorem scatterKind_send (h : A.Sends k v) : A.scatterKind k v =
      some (.send (A.sendBuf (A.rank v) + A.scatterSize * (v + 2 ^ k)) (A.sendSize k v) (A.rank (v + 2 ^ k))) := by
  rw [scatterKind, if_neg, if_pos h]
  rw [h.1]
  exact (Nat.two_pow_pos k).ne

theorem mem_scatterKind {e : EntryKind} (h : e ∈ A.scatterKind k v) :
    (v % 2 ^ (k + 1) = 2 ^ k ∧ v * A.scatterSize < A.nbytes ∧
      e = .recv (A.recvBuf + v * A.scatterSize) (A.nbytes - v * A.scatterSize) (A.rank (v - 2 ^ k))) ∨
    (A.Sends k v ∧
      e = .send (A.sendBuf (A.rank v) + A.scatterSize * (v + 2 ^ k)) (A.sendSize k v) (A.rank (v + 2 ^ k))) := by
  unfold scatterKind at h
  split at h
  next hhalf =>
    split at h
    next hlt => exact .inl ⟨hhalf, hlt, (Option.some.inj h).symm⟩
    next => cases h
  next =>
    split at h
    next hs => exact .inr ⟨hs, (Option.some.inj h).symm⟩
    next => cases h

theorem sends_parent (hv : v < A.n) (hhalf : v % 2 ^ (k + 1) = 2 ^ k)
    (hlt : v * A.scatterSize < A.nbytes) : A.Sends k (v - 2 ^ k) := by
  have hback : v - 2 ^ k + 2 ^ k = v := Nat.sub_add_cancel (two_pow_le_of_half hhalf)
  exact ⟨sub_two_pow_zero hhalf, by rwa [hback], by rwa [hback]⟩

variable (A) in
theorem scatterKind_roomy (k : Nat) : KindsRoomy (A.kinds (A.scatterKind k)) A.n := by
  refine A.numbering.kindsRoomy_single_on (fun v _ e he => ?_) (fun v hv e he d c hd => ?_)
    fun v hv e he s c hs => ?_
  · rcases mem_scatterKind he with ⟨-, -, rfl⟩ | ⟨-, rfl⟩
    · exact .inr ⟨_, rfl⟩
    · exact .inl ⟨_, rfl⟩
  · rcases mem_scatterKind he with ⟨-, -, rfl⟩ | ⟨hsends, rfl⟩
    · cases hd
    · -- the child posts a receive for everything up to the end
      cases hd
      refine ⟨v + 2 ^ k, hsends.2.1, rfl, _, scatterKind_recv (add_two_pow_half hsends.1) hsends.2.2, _, ?_, sendSize_le⟩
      rw [Nat.add_sub_cancel]
      rfl
  · rcases mem_scatterKind he with ⟨hhalf, hlt, rfl⟩ | ⟨-, rfl⟩
    · cases hs
      refine ⟨v - 2 ^ k, (Nat.sub_le ..).trans_lt hv, rfl, _,
        scatterKind_send (sends_parent hv hhalf hlt), A.sendSize k (v - 2 ^ k), ?_⟩
      rw [Nat.sub_add_cancel (two_pow_le_of_half hhalf)]
      rfl
    · cases hs

variable (A) in
theorem mul_add_blockSize_le (b : Nat) : A.blockSize b = 0 ∨ b * A.scatterSize + A.blockSize b ≤ A.nbytes := by
  unfold blockSize
  omega

variable (A) in
theorem blocks_apart {b' : Nat} (h : b ≠ b') :
    b * A.scatterSize + A.blockSize b ≤ b' * A.scatterSize ∨
      b' * A.scatterSize + A.blockSize b' ≤ b * A.scatterSize := by
  have hle : ∀ {b b' : Nat}, b < b' → b * A.scatterSize + A.blockSize b ≤ b' * A.scatterSize := by
    intro b b' hlt
    have h1 : (b + 1) * A.scatterSize ≤ b' * A.scatterSize := Nat.mul_le_mul_right _ hlt
    have h2 : A.blockSize b ≤ A.scatterSize := Nat.min_le_left ..
    rw [Nat.add_mul, Nat.one_mul] at h1
    omega
  rcases h.lt_or_gt with h | h
  · exact .inl (hle h)
  · exact .inr (hle h)

variable (hbufs : ∀ r < A.n, A.sendBuf r = A.recvBuf ∨ PieceApart (A.sendBuf r, A.nbytes) (A.recvBuf, A.nbytes))

include hbufs in
theorem blockSwap_good (ht : t + 1 < A.n) : SwapGood (A.blockSwap t) A.n := by
  have h1 : 1 < A.n := by omega
  refine swapGood_ite (fun _ _ => rfl) (fun r hr => ⟨rotUp_lt hr h1, rotDown_rotUp hr h1, ?_⟩)
    (fun r hr => ⟨rotDown_lt hr h1, rotUp_rotDown hr h1, ?_⟩) fun r hr => ?_
  · -- the right neighbour expects the block that is one step further back from its own
    dsimp only
    rw [← A.rel_left (rotUp_lt hr h1) ht, rotDown_rotUp hr h1]
  · dsimp only
    rw [A.rel_left hr ht]
  · have hne : rotDown A.n (A.rel r) t ≠ rotDown A.n (A.rel r) (t + 1) := by
      intro h
      exact absurd (rotDown_inj (by omega) ht h) ((Nat.lt_succ_self t).ne)
    refine ⟨fun p hp q hq => ?_, forall_mem_nil _⟩
    rw [mem_singleton.mp hp, mem_singleton.mp hq]
    rcases A.mul_add_blockSize_le (rotDown A.n (A.rel r) (t + 1)) with h0 | hle
    · exact .inr (.inr (.inr (.inl h0)))
    rcases A.mul_add_blockSize_le (rotDown A.n (A.rel r) t) with h0 | hle'
    · exact .inr (.inr (.inr (.inr h0)))
    exact (PieceApart.parts (hbufs r hr) hle' hle (A.blocks_apart hne)).symm

theorem rootCopyKinds_good : KindsGood A.rootCopyKinds A.n := kindsGood_ite (fun _ hr => hr.1 ▸ A.root_lt) fun _ => rfl

include hbufs in
theorem broadcastRounds_roomy : ∀ R ∈ A.broadcastRounds, R.IsRoomy A.n ∧ R.Closed := by
  intro R hR
  rcases mem_append.mp hR with hR | hR
  · rcases mem_append.mp hR with hR | hR
    · obtain ⟨k, -, rfl⟩ := mem_map.mp hR
      exact ⟨(A.scatterKind_roomy k).isRoomy true, closed_ofKinds _⟩
    · obtain ⟨t, ht, rfl⟩ := mem_map.mp hR
      have hlt := mem_range.mp ht
      exact ⟨((blockSwap_good hbufs (by omega)).kindsGood true).roomy.isRoomy true, closed_ofKinds _⟩
  · rw [mem_singleton.mp hR]
    exact ⟨rootCopyKinds_good.roomy.isRoomy true, closed_ofKinds _⟩

/-! ## The scatter -/

variable {α : Type} (op : α → α → α)

/-- A buffer has the data from one place to another. -/
def Has (D : Nat → α) (buf : CclBuffer) (lo hi : Nat) (m : Mem α) : Prop := ∀ i, lo ≤ i → i < hi → m (buf.at i) = D i

theorem scatter_exec_recv (σ : Nat → Mem α) (hv : v < A.n) (hhalf : v % 2 ^ (k + 1) = 2 ^ k)
    (hlt : v * A.scatterSize < A.nbytes) :
    (A.scatterRound k).exec op σ (A.rank v) = store (A.recvBuf + v * A.scatterSize)
      (load (A.sendBuf (A.rank (v - 2 ^ k)) + A.scatterSize * v) (A.sendSize k (v - 2 ^ k)) (σ (A.rank (v - 2 ^ k))))
        (σ (A.rank v)) := by
  have hback : v - 2 ^ k + 2 ^ k = v := Nat.sub_add_cancel (two_pow_le_of_half hhalf)
  have hsends := scatterKind_send (sends_parent hv hhalf hlt)
  rw [hback] at hsends
  apply exec_recv_room op true σ (A.scatterKind_roomy k)
  · rw [A.kinds_rank _ hv, scatterKind_recv hhalf hlt]
    rfl
  · rw [A.kinds_rank _ ((Nat.sub_le ..).trans_lt hv), hsends]
    exact mem_singleton.mpr rfl

theorem scatter_exec_idle (σ : Nat → Mem α) (hv : v < A.n)
    (h : ¬ (v % 2 ^ (k + 1) = 2 ^ k ∧ v * A.scatterSize < A.nbytes)) :
    (A.scatterRound k).exec op σ (A.rank v) = σ (A.rank v) := by
  have hkinds := A.kinds_rank (A.scatterKind k) hv
  cases hk : A.scatterKind k v with
  | none =>
    rw [hk] at hkinds
    exact exec_idle op true σ hkinds
  | some e =>
    rcases mem_scatterKind hk with ⟨h1, h2, -⟩ | ⟨-, rfl⟩
    · exact absurd ⟨h1, h2⟩ h
    · rw [hk] at hkinds
      exact exec_send op true σ hkinds

/-- What holds before the step of bit `k - 1`: the multiples of `2 ^ k` have the blocks up to the next multiple. -/
structure Scattered (A : BcastCall) (D : Nat → α) (k : Nat) (σ : Nat → Mem α) : Prop where
  source : Has D (A.sendBuf A.root) 0 A.nbytes (σ A.root)
  other : ∀ v, 0 < v → v < A.n → v % 2 ^ k = 0 →
    Has D A.recvBuf (v * A.scatterSize) (min A.nbytes ((v + 2 ^ k) * A.scatterSize)) (σ (A.rank v))

variable {D : Nat → α} {σ : Nat → Mem α}

/-- **One step of the scatter.** -/
theorem Scattered.step (hmid : ∀ v, 0 < v → v + 1 < A.n → A.sendBuf (A.rank v) = A.recvBuf)
    (h : A.Scattered D (k + 1) σ) : A.Scattered D k ((A.scatterRound k).exec op σ) := by
  constructor
  · have hidle := scatter_exec_idle op σ (k := k) A.comm.size_pos fun hc =>
      absurd hc.1 (by rw [Nat.zero_mod]; exact (Nat.two_pow_pos k).ne)
    rw [A.rank_zero] at hidle
    rw [hidle]
    exact h.source
  · intro v hpos hv hzero i hlo hhi
    rw [Nat.lt_min] at hhi
    rcases mod_two_pow_succ hzero with hz | hhalf
    · -- it had even more
      rw [scatter_exec_idle op σ hv fun hc => absurd (hz.symm.trans hc.1) ((Nat.two_pow_pos k).ne)]
      refine h.other v hpos hv hz i hlo (Nat.lt_min.mpr ⟨hhi.1, Nat.lt_of_lt_of_le hhi.2 ?_⟩)
      exact Nat.mul_le_mul_right _ (Nat.add_le_add_left (Nat.pow_le_pow_right (by decide) (Nat.le_succ k)) v)
    · -- it receives from its parent, that has all blocks up to where this rank's end
      have hlt : v * A.scatterSize < A.nbytes := hlo.trans_lt hhi.1
      have hle := two_pow_le_of_half hhalf
      have hback : v - 2 ^ k + 2 ^ k = v := Nat.sub_add_cancel hle
      obtain ⟨j, rfl⟩ : ∃ j, i = v * A.scatterSize + j := ⟨i - v * A.scatterSize, by omega⟩
      have hj : j < A.sendSize k (v - 2 ^ k) := by
        refine (Nat.lt_min.mpr ⟨?_, ?_⟩).trans_le le_sendSize
        · have := hhi.2
          rw [Nat.add_mul] at this
          omega
        · rw [hback]
          omega
      rw [scatter_exec_recv op σ hv hhalf hlt, ← CclBuffer.add_at, store_load_at hj, CclBuffer.add_at,
        Nat.mul_comm A.scatterSize]
      rcases Nat.eq_zero_or_pos (v - 2 ^ k) with h0 | hpos'
      · rw [h0, A.rank_zero]
        exact h.source _ (Nat.zero_le _) hhi.1
      · have hpow := Nat.two_pow_pos k
        rw [hmid (v - 2 ^ k) hpos' (by omega)]
        refine h.other (v - 2 ^ k) hpos' (by omega) (sub_two_pow_zero hhalf) _ ?_ (Nat.lt_min.mpr ⟨hhi.1, ?_⟩)
        · exact (Nat.mul_le_mul_right _ (Nat.sub_le ..)).trans hlo
        · rw [Nat.pow_succ, Nat.mul_two, ← Nat.add_assoc, hback]
          exact hhi.2

/-- **The whole scatter.** -/
theorem Scattered.run (hmid : ∀ v, 0 < v → v + 1 < A.n → A.sendBuf (A.rank v) = A.recvBuf)
    (h : A.Scattered D m σ) : A.Scattered D 0 (execRounds op (A.scatterRounds m) σ) := by
  induction m generalizing σ with
  | zero => exact h
  | succ m ih =>
    rw [scatterRounds, range_succ, reverse_append, reverse_singleton, singleton_append, map_cons]
    exact ih (h.step op hmid)

theorem scattered_start (h : Has D (A.sendBuf A.root) 0 A.nbytes (σ A.root)) : A.Scattered D A.n σ := by
  refine ⟨h, fun v hpos hv hzero => ?_⟩
  rw [Nat.mod_eq_of_lt (hv.trans Nat.lt_two_pow_self)] at hzero
  omega

/-! ## The ring -/

/-- What holds after `t` steps of the ring: a rank has its own block and the `t` blocks before it. -/
structure Gathered (A : BcastCall) (D : Nat → α) (t : Nat) (σ : Nat → Mem α) : Prop where
  source : Has D (A.sendBuf A.root) 0 A.nbytes (σ A.root)
  other : ∀ v, 0 < v → v < A.n → ∀ j ≤ t,
    Has D A.recvBuf (rotDown A.n v j * A.scatterSize)
      (rotDown A.n v j * A.scatterSize + A.blockSize (rotDown A.n v j))
      (σ (A.rank v))

theorem Scattered.gathered (h : A.Scattered D 0 σ) : A.Gathered D 0 σ := by
  refine ⟨h.source, fun v hpos hv j hj i hlo hhi => ?_⟩
  obtain rfl : j = 0 := Nat.le_zero.mp hj
  rw [rotDown_zero] at hlo hhi
  refine h.other v hpos hv (Nat.mod_one v) i hlo (Nat.lt_min.mpr ?_)
  rw [Nat.pow_zero, Nat.add_mul, Nat.one_mul]
  unfold blockSize at hhi
  omega

theorem blockSwap_pair (ht : t + 1 < A.n) (hr : r < A.n) :
    ∃ x y, A.blockSwap t r = some x ∧ A.blockSwap t x.src = some y ∧ x.src = rotDown A.n r 1 ∧
      x.receive = .recv (A.recvBuf + rotDown A.n (A.rel r) (t + 1) * A.scatterSize)
        (A.blockSize (rotDown A.n (A.rel r) (t + 1))) (rotDown A.n r 1) ∧
      y.buf = A.sendBuf (rotDown A.n r 1) + rotDown A.n (A.rel r) (t + 1) * A.scatterSize ∧
      y.sendCnt = A.blockSize (rotDown A.n (A.rel r) (t + 1)) := by
  have h1 : 1 < A.n := by omega
  refine ⟨_, _, if_pos hr, if_pos (rotDown_lt hr h1), rfl, rfl, ?_, ?_⟩ <;> dsimp only <;> rw [A.rel_left hr ht]

include hbufs in
theorem ring_exec_at (ht : t + 1 < A.n) (σ : Nat → Mem α) (hr : r < A.n)
    (hb : rotDown A.n (A.rel r) (t + 1) = b) (hlo : b * A.scatterSize ≤ i)
    (hhi : i < b * A.scatterSize + A.blockSize b) :
    (A.ringRound t).exec op σ r (A.recvBuf.at i) =
      σ (rotDown A.n r 1) ((A.sendBuf (rotDown A.n r 1)).at i) := by
  obtain ⟨x, y, hx, hy, hsrc, hrecv, hbuf, hcnt⟩ := blockSwap_pair ht hr
  rw [hb] at hrecv hbuf hcnt
  obtain ⟨j, rfl⟩ : ∃ j, i = b * A.scatterSize + j := ⟨i - b * A.scatterSize, by omega⟩
  have hat := (blockSwap_good hbufs ht).exec_recv_at op true true σ hx hy hrecv hcnt
    (Nat.lt_of_add_lt_add_left hhi)
  rw [← CclBuffer.add_at, hat, hbuf, hsrc, CclBuffer.add_at]

include hbufs in
theorem ring_exec_frame (ht : t + 1 < A.n) (σ : Nat → Mem α) (hr : r < A.n)
    (hb : rotDown A.n (A.rel r) (t + 1) = b)
    (ha : a ∉ region (A.recvBuf + b * A.scatterSize) (A.blockSize b)) :
    (A.ringRound t).exec op σ r a = σ r a := by
  obtain ⟨x, y, hx, hy, -, hrecv, -, hcnt⟩ := blockSwap_pair ht hr
  rw [hb] at hrecv hcnt
  exact (blockSwap_good hbufs ht).exec_recv_of_notMem op true true σ hx hy hrecv hcnt ha

theorem rotDown_zero_left (ht : t + 1 < n) : rotDown n 0 (t + 1) = rotDown n (n - 1) t ∧ 0 < rotDown n 0 (t + 1) := by
  unfold rotDown
  split <;> split <;> omega

include hbufs in
/-- **One step of the ring.** -/
theorem Gathered.step (hfwd : Forwards A.sendBuf A.recvBuf A.nbytes A.comm A.root) (ht : t + 1 < A.n)
    (h : A.Gathered D t σ) : A.Gathered D (t + 1) ((A.ringRound t).exec op σ) := by
  constructor
  · intro i _ hi
    obtain ⟨hblock, hpos⟩ := rotDown_zero_left ht
    by_cases hmem : (A.sendBuf A.root).at i ∈
        region (A.recvBuf + rotDown A.n 0 (t + 1) * A.scatterSize) (A.blockSize (rotDown A.n 0 (t + 1)))
    · -- a block from the last rank: then the root is in place, and the last rank has the block
      have hroot_eq : A.sendBuf A.root = A.recvBuf := by
        rcases hbufs A.root A.root_lt with heq | hapart
        · exact heq
        · rcases A.mul_add_blockSize_le (rotDown A.n 0 (t + 1)) with h0 | hle
          · rw [h0] at hmem
            obtain ⟨j, hj, -⟩ := exists_at_of_mem_region hmem
            exact absurd hj (Nat.not_lt_zero j)
          · have hparts : PieceApart (A.sendBuf A.root + 0, A.nbytes) (A.recvBuf + rotDown A.n 0 (t + 1) *
                A.scatterSize, A.blockSize (rotDown A.n 0 (t + 1))) :=
              hapart.parts_of_apart ((Nat.zero_add _).le) hle
            exact absurd hmem (Set.disjoint_left.mp hparts.disjoint (at_mem_region.mpr hi))
      rw [hroot_eq] at hmem ⊢
      obtain ⟨hlo, hhi⟩ := at_mem_region_add.mp hmem
      have hlast : A.sendBuf (A.rank (A.n - 1)) = A.recvBuf := by
        rcases hfwd.last with hne | heq | hle
        · exact absurd hroot_eq hne
        · exact heq
        · -- with one byte the block is empty
          have hss := A.scatterSize_pos (show 0 < A.nbytes by omega)
          have hge : 1 * 1 ≤ rotDown A.n 0 (t + 1) * A.scatterSize := Nat.mul_le_mul hpos hss
          omega
      have hat := ring_exec_at hbufs op ht σ A.root_lt (by rw [A.rel_root]) hlo hhi
      rw [hat, A.left_root, hlast]
      rw [hblock] at hlo hhi
      exact h.other (A.n - 1) (by omega) (by omega) t (Nat.le_refl t) i hlo hhi
    · rw [ring_exec_frame hbufs op ht σ A.root_lt (by rw [A.rel_root]) hmem]
      exact h.source i (Nat.zero_le i) hi
  · intro v hpos hv j hj i hlo hhi
    have hr := A.rank_lt hv
    rcases hj.lt_or_eq with hj | rfl
    · -- the blocks it had are not touched
      have hne : rotDown A.n v j ≠ rotDown A.n v (t + 1) := fun heq =>
        absurd (rotDown_inj (by omega) ht heq) hj.ne
      have hnot : A.recvBuf.at i ∉ region (A.recvBuf + rotDown A.n v (t + 1) * A.scatterSize)
          (A.blockSize (rotDown A.n v (t + 1))) := by
        rw [at_mem_region_add]
        have := A.blocks_apart hne
        omega
      rw [ring_exec_frame hbufs op ht σ hr (by rw [A.rel_rank hv]) hnot]
      exact h.other v hpos hv j (Nat.le_of_lt_succ hj) i hlo hhi
    · -- the new one comes from the left neighbour
      have hat := ring_exec_at hbufs op ht σ hr (by rw [A.rel_rank hv]) hlo hhi
      rw [hat, A.left_rank hv hpos]
      have hblock : rotDown A.n v (t + 1) = rotDown A.n (v - 1) t := by
        unfold rotDown
        split <;> split <;> omega
      rcases Nat.eq_zero_or_pos (v - 1) with h0 | hpos'
      · rw [h0, A.rank_zero]
        refine h.source i (Nat.zero_le i) ?_
        rcases A.mul_add_blockSize_le (rotDown A.n v (t + 1)) with h0 | hle
        · omega
        · omega
      · have hlt : v - 1 + 1 < A.n := by omega
        rw [show A.sendBuf (A.rank (v - 1)) = A.recvBuf from hfwd.mid (v - 1) hpos' hlt]
        rw [hblock] at hlo hhi
        exact h.other (v - 1) hpos' (by omega) t (Nat.le_refl t) i hlo hhi

include hbufs in
/-- **The whole ring.** -/
theorem Gathered.run (hfwd : Forwards A.sendBuf A.recvBuf A.nbytes A.comm A.root) (h : A.Gathered D 0 σ)
    (hm : m < A.n) : A.Gathered D m (execRounds op (A.ringRounds m) σ) := by
  induction m with
  | zero => exact h
  | succ m ih =>
    rw [ringRounds, range_succ, map_append, execRounds_append]
    exact (ih (by omega)).step hbufs op hfwd hm

variable (A) in
theorem exists_block (hi : i < A.nbytes) :
    ∃ b < A.n, b * A.scatterSize ≤ i ∧ i < b * A.scatterSize + A.blockSize b := by
  have hss := A.scatterSize_pos ((Nat.zero_le i).trans_lt hi)
  have hdiv := Nat.div_add_mod i A.scatterSize
  have hmod := Nat.mod_lt i hss
  rw [Nat.mul_comm] at hdiv
  refine ⟨i / A.scatterSize, ?_, by omega, ?_⟩
  · exact (Nat.div_lt_iff_lt_mul hss).mpr (hi.trans_le (le_mul_scatterSize A.comm.size_pos A.nbytes))
  · unfold blockSize
    omega

theorem Gathered.all (h : A.Gathered D (A.n - 1) σ) (hpos : 0 < v) (hv : v < A.n) :
    Has D A.recvBuf 0 A.nbytes (σ (A.rank v)) := by
  intro i _ hi
  obtain ⟨b, hb, hlo, hhi⟩ := A.exists_block hi
  obtain ⟨j, hj, rfl⟩ := exists_rotDown hv hb
  exact h.other v hpos hv j (by omega) i hlo hhi

include hbufs in
/-- **What the broadcast computes**, when what is sent on is what was received. -/
theorem broadcastRounds_exec (hn : 2 ≤ A.n) (hfwd : Forwards A.sendBuf A.recvBuf A.nbytes A.comm A.root)
    (mem : Nat → Mem α) (hr : r < A.n) (hi : i < A.nbytes) :
    execRounds op A.broadcastRounds mem r (A.recvBuf.at i) = mem A.root ((A.sendBuf A.root).at i) := by
  have hstart : A.Scattered (fun i => mem A.root ((A.sendBuf A.root).at i)) A.n mem :=
    scattered_start fun _ _ _ => rfl
  have hring := ((hstart.run op hfwd.mid).gathered).run hbufs op hfwd (m := A.n - 1) (by omega)
  rw [broadcastRounds, execRounds_append, execRounds_append]
  show (ofKinds true A.rootCopyKinds).exec op _ r _ = _
  by_cases hcopy : r = A.root ∧ A.sendBuf r ≠ A.recvBuf
  · rw [exec_copy op true _ (if_pos hcopy), compCopy_at hi, hcopy.1]
    exact hring.source i (Nat.zero_le i) hi
  · rw [exec_idle op true _ (if_neg hcopy)]
    by_cases hroot_eq : r = A.root
    · have hin : A.sendBuf A.root = A.recvBuf := not_not.mp fun hne => hcopy ⟨hroot_eq, hroot_eq ▸ hne⟩
      have := hring.source i (Nat.zero_le i) hi
      rw [hroot_eq]
      rwa [hin] at this ⊢
    · have hpos : 0 < A.rel r := Nat.pos_of_ne_zero fun h0 => hroot_eq (A.rel_eq_zero.mp h0)
      have := hring.all hpos (A.rel_lt hr) i (Nat.zero_le i) hi
      rwa [A.rank_rel hr] at this

/-! ## What is sent on without having been received -/

theorem region_part_subset {buf : CclBuffer} {off cnt : Nat} (h : cnt = 0 ∨ off + cnt ≤ n) (ha : a ∉ region buf n) :
    a ∉ region (buf + off) cnt := by
  intro hmem
  obtain ⟨j, hj, rfl⟩ := exists_at_of_mem_region hmem
  rw [CclBuffer.add_at] at ha
  exact ha (at_mem_region.mpr (by omega))

theorem scatterRounds_frame (m : Nat) (σ : Nat → Mem α) (r : Nat) (ha : a ∉ region A.recvBuf A.nbytes) :
    execRounds op (A.scatterRounds m) σ r a = σ r a := by
  induction m generalizing σ with
  | zero => rfl
  | succ m ih =>
    rw [scatterRounds, range_succ, reverse_append, reverse_singleton, singleton_append, map_cons]
    refine (ih _).trans ((A.scatterKind_roomy m).exec_frame op true σ fun k hk p hp => ?_)
    obtain ⟨v, -, -, hk⟩ := A.numbering.mem_join_on.mp hk
    rcases mem_scatterKind hk with ⟨-, hlt, rfl⟩ | ⟨-, rfl⟩
    · rw [mem_singleton.mp hp]
      exact region_part_subset (.inr (by omega)) ha
    · cases hp

include hbufs in
theorem ringRounds_frame (hm : m < A.n) (σ : Nat → Mem α) (hr : r < A.n) (ha : a ∉ region A.recvBuf A.nbytes) :
    execRounds op (A.ringRounds m) σ r a = σ r a := by
  induction m with
  | zero => rfl
  | succ m ih =>
    rw [ringRounds, range_succ, map_append, execRounds_append]
    refine (ring_exec_frame hbufs op hm _ hr rfl ?_).trans (ih (by omega))
    exact region_part_subset (A.mul_add_blockSize_le _) ha

include hbufs in
/-- **A rank ends with what its left neighbour had in its send buffer**, if that is not where the neighbour
receives. -/
theorem ringRounds_stale (hm : m < A.n) (σ : Nat → Mem α) (hr : r < A.n) (ht : t < m)
    (hb : rotDown A.n (A.rel r) (t + 1) = b) (hlo : b * A.scatterSize ≤ i)
    (hhi : i < b * A.scatterSize + A.blockSize b)
    (hleft : (A.sendBuf (rotDown A.n r 1)).at i ∉ region A.recvBuf A.nbytes) :
    execRounds op (A.ringRounds m) σ r (A.recvBuf.at i) =
      σ (rotDown A.n r 1) ((A.sendBuf (rotDown A.n r 1)).at i) := by
  induction m with
  | zero => exact absurd ht (Nat.not_lt_zero t)
  | succ m ih =>
    rw [ringRounds, range_succ, map_append, execRounds_append]
    rcases (Nat.le_of_lt_succ ht).lt_or_eq with htm | rfl
    · -- a later step brings another block
      have hne : b ≠ rotDown A.n (A.rel r) (m + 1) := by
        intro h
        have := rotDown_inj (by omega) hm (hb.trans h)
        omega
      have hnot : A.recvBuf.at i ∉ region (A.recvBuf + rotDown A.n (A.rel r) (m + 1) * A.scatterSize)
          (A.blockSize (rotDown A.n (A.rel r) (m + 1))) := by
        rw [at_mem_region_add]
        have := A.blocks_apart hne
        omega
      exact (ring_exec_frame hbufs op hm _ hr rfl hnot).trans (ih (by omega) htm)
    · exact (ring_exec_at hbufs op hm _ hr hb hlo hhi).trans
        (ringRounds_frame hbufs op (by omega) σ (rotDown_lt hr (by omega)) hleft)

include hbufs in
theorem broadcastRounds_stale (hn : 2 ≤ A.n) (mem : Nat → Mem α) (hr : r < A.n) (ht : t + 1 < A.n)
    (hb : rotDown A.n (A.rel r) (t + 1) = b) (hlo : b * A.scatterSize ≤ i)
    (hhi : i < b * A.scatterSize + A.blockSize b)
    (hleft : A.sendBuf (rotDown A.n r 1) ≠ A.recvBuf) (hcopy : ¬ (r = A.root ∧ A.sendBuf r ≠ A.recvBuf)) :
    execRounds op A.broadcastRounds mem r (A.recvBuf.at i) =
      mem (rotDown A.n r 1) ((A.sendBuf (rotDown A.n r 1)).at i) := by
  have hl : rotDown A.n r 1 < A.n := rotDown_lt hr (by omega)
  have hi : i < A.nbytes := by
    unfold blockSize at hhi
    omega
  have hnot : (A.sendBuf (rotDown A.n r 1)).at i ∉ region A.recvBuf A.nbytes := by
    rcases hbufs _ hl with heq | hapart
    · exact absurd heq hleft
    · exact Set.disjoint_left.mp hapart.disjoint (at_mem_region.mpr hi)
  rw [broadcastRounds, execRounds_append, execRounds_append]
  show (ofKinds true A.rootCopyKinds).exec op _ r _ = _
  rw [exec_idle op true _ (if_neg hcopy), ringRounds_stale hbufs op (by omega) _ hr (by omega) hb hlo hhi hnot]
  exact scatterRounds_frame op A.n mem _ hnot

end BcastCall

end OneCcl
