import OneCcl.Coll.ScatterRingExec

/-!
# The lengths of the binomial scatter

In the scatter of the scatter-ring broadcast the sender of a message works out its length from what it takes for its
own, and the receiver from where its own block begins. The receiver counts everything up to the end of the data, the
sender only the blocks of the receiver's subtree, and the two are one only where the subtree reaches the end. A
receiver that counted too much then sends on bytes it never got.

Only with two blocks of data at most is every length right: then there is one message, from the root to the rank
after it. `scatter_sound_iff` says for which sizes that is.
-/

namespace OneCcl

open Async Reduction List

section

variable (buf : CclBuffer) (root nbytes : Nat) (comm : CclComm)

/-- The entries of a rank in the scatter phase. -/
def scatterPhase (rank : Nat) : List EntryKind :=
  (cclCollBuildScatterForBcast buf root nbytes comm rank (.new 0)).entries.map (·.kind)

/-- A rank that has run some entries of the phase holds a byte: the root holds all the data, another rank what the
matching sends have brought. -/
def HoldsByte (rank : Nat) (done : List EntryKind) (x : BufSrc × Nat) : Prop :=
  (rank = root ∧ ∃ i < nbytes, x = buf.at i) ∨
    ∃ b cnt src b' cnt', .recv b cnt src ∈ done ∧ .send b' cnt' rank ∈ scatterPhase buf root nbytes comm src ∧
      ∃ i < cnt', x = b.at i

/-- The messages of the phase: a receive is as long as its send, and a rank sends what it holds. -/
structure ScatterSound : Prop where
  lengths : ∀ r < comm.size, ∀ b cnt src, .recv b cnt src ∈ scatterPhase buf root nbytes comm r →
    ∃ b', .send b' cnt r ∈ scatterPhase buf root nbytes comm src
  held : ∀ r < comm.size, ∀ done b cnt dst rest,
    scatterPhase buf root nbytes comm r = done ++ .send b cnt dst :: rest →
      ∀ i < cnt, HoldsByte buf root nbytes comm r done (b.at i)

end

namespace BcastCall

variable (A : BcastCall)

/-- The entries of a rank, in a call on one buffer. -/
abbrev phase (r : Nat) : List EntryKind := scatterPhase A.recvBuf A.root A.nbytes A.comm r

variable {A} (hone : ∀ r, A.sendBuf r = A.recvBuf) {v cnt k : Nat} {b : CclBuffer}

include hone in
theorem mem_phase (hv : v < A.n) {e : EntryKind} : e ∈ A.phase (A.rank v) ↔ ∃ k < A.n, e ∈ A.scatterKind k v := by
  have hskip : ∀ dst, dst ≠ A.root → (fun _ : Nat => false) dst = false := fun _ _ => rfl
  have hentries := scatterFor_entries (A.rank_lt hv) hskip (.new 0)
  rw [hone, A.rel_rank hv] at hentries
  unfold phase scatterPhase cclCollBuildScatterForBcast
  rw [hentries]
  simp only [Sched.new, nil_append, map_flatMap, mem_flatMap, mem_reverse, mem_range, scatterEntries,
    map_kind_entriesOf, Option.mem_toList, Option.mem_def]

include hone in
theorem recv_mem_phase (hv : v < A.n) {src : Nat} (h : .recv b cnt src ∈ A.phase (A.rank v)) :
    ∃ k, v % 2 ^ (k + 1) = 2 ^ k ∧ v * A.scatterSize < A.nbytes ∧ b = A.recvBuf + v * A.scatterSize ∧
      cnt = A.nbytes - v * A.scatterSize ∧ src = A.rank (v - 2 ^ k) := by
  obtain ⟨k, -, hk⟩ := (mem_phase hone hv).mp h
  rcases mem_scatterKind hk with ⟨hhalf, hlt, he⟩ | ⟨-, he⟩
  · obtain ⟨rfl, rfl, rfl⟩ := EntryKind.recv.inj he
    exact ⟨k, hhalf, hlt, rfl, rfl, rfl⟩
  · cases he

include hone in
theorem send_mem_phase (hv : v < A.n) {dst : Nat} (h : .send b cnt dst ∈ A.phase (A.rank v)) :
    ∃ k, A.Sends k v ∧ b = A.recvBuf + A.scatterSize * (v + 2 ^ k) ∧ cnt = A.sendSize k v ∧
      dst = A.rank (v + 2 ^ k) := by
  obtain ⟨k, -, hk⟩ := (mem_phase hone hv).mp h
  rcases mem_scatterKind hk with ⟨-, -, he⟩ | ⟨hsends, he⟩
  · cases he
  · obtain ⟨rfl, rfl, rfl⟩ := EntryKind.send.inj he
    exact ⟨k, hsends, by rw [hone], rfl, rfl⟩

include hone in
theorem phase_recv (hv : v < A.n) (hhalf : v % 2 ^ (k + 1) = 2 ^ k) (hlt : v * A.scatterSize < A.nbytes) :
    .recv (A.recvBuf + v * A.scatterSize) (A.nbytes - v * A.scatterSize) (A.rank (v - 2 ^ k)) ∈
      A.phase (A.rank v) := by
  have hk : k < A.n := Nat.lt_of_lt_of_le Nat.lt_two_pow_self ((two_pow_le_of_half hhalf).trans hv.le)
  exact (mem_phase hone hv).mpr ⟨k, hk, scatterKind_recv hhalf hlt⟩

include hone in
theorem phase_send (hv : v < A.n) (h : A.Sends k v) :
    .send (A.recvBuf + A.scatterSize * (v + 2 ^ k)) (A.sendSize k v) (A.rank (v + 2 ^ k)) ∈ A.phase (A.rank v) := by
  have hk : k < A.n := Nat.lt_two_pow_self.trans_le (by have := h.2.1; omega)
  have hsend := scatterKind_send h
  rw [hone] at hsend
  exact (mem_phase hone hv).mpr ⟨k, hk, hsend⟩

/-! ## Two blocks -/

theorem lt_two_of_mul_lt {s n : Nat} (hle : n ≤ 2 * s) (h : v * s < n) : v < 2 := by
  have hlt : v * s < 2 * s := h.trans_le hle
  exact Nat.lt_of_mul_lt_mul_right hlt

theorem sendSize_zero_of_le (hle : A.nbytes ≤ 2 * A.scatterSize) : A.sendSize 0 0 = A.nbytes - A.scatterSize := by
  rw [sendSize_eq, if_neg]
  · rw [Nat.zero_add, Nat.pow_zero, Nat.one_mul]
  · intro h
    have := h.2.2
    exact absurd this hle.not_gt

theorem Sends.eq_zero (hle : A.nbytes ≤ 2 * A.scatterSize) (h : A.Sends k v) : v = 0 ∧ k = 0 := by
  have hlt := lt_two_of_mul_lt hle h.2.2
  have hpos := Nat.two_pow_pos k
  refine ⟨by omega, ?_⟩
  by_contra hk
  have := Nat.pow_le_pow_right (show 0 < 2 by decide) (Nat.one_le_iff_ne_zero.mpr hk)
  omega

include hone in
theorem scatterSound_of_le (hle : A.nbytes ≤ 2 * A.scatterSize) :
    ScatterSound A.recvBuf A.root A.nbytes A.comm := by
  refine ⟨fun r hr b cnt src h => ?_, fun r hr done b cnt dst rest h i hi => ?_⟩ <;>
    obtain ⟨v, hv, rfl⟩ := A.exists_rank hr
  · -- a receive is at relative rank 1, from the root
    obtain ⟨k, hhalf, hlt, -, rfl, rfl⟩ := recv_mem_phase hone hv h
    have hsends := sends_parent hv hhalf hlt
    obtain ⟨hzero, rfl⟩ := hsends.eq_zero hle
    have hsend := phase_send hone A.comm.size_pos (hzero ▸ hsends)
    have hv1 : v = 0 + 2 ^ 0 := by omega
    rw [sendSize_zero_of_le hle] at hsend
    subst hv1
    exact ⟨_, by rwa [hzero, Nat.zero_add, Nat.pow_zero, Nat.one_mul]⟩
  · obtain ⟨k, hsends, rfl, rfl, -⟩ := send_mem_phase hone hv (h ▸ mem_append_right _ mem_cons_self)
    obtain ⟨rfl, rfl⟩ := hsends.eq_zero hle
    rw [sendSize_zero_of_le hle] at hi
    refine .inl ⟨A.rank_zero, A.scatterSize + i, by omega, ?_⟩
    rw [Nat.zero_add, Nat.pow_zero, Nat.mul_one, CclBuffer.add_at]

/-! ## More than two blocks -/

theorem sendSize_zero_of_lt (hn : 2 < A.n) (hlt : 2 * A.scatterSize < A.nbytes) : A.sendSize 0 0 = A.scatterSize := by
  rw [sendSize_eq, if_pos ⟨rfl, by rwa [Nat.zero_add], by rwa [Nat.zero_add]⟩, Nat.pow_zero, Nat.one_mul]

include hone in
theorem not_scatterSound_of_lt (hlt : 2 * A.scatterSize < A.nbytes) :
    ¬ ScatterSound A.recvBuf A.root A.nbytes A.comm := by
  intro hsound
  have hsize : 2 < A.n := by
    by_contra hn
    have hle : A.nbytes ≤ A.n * A.scatterSize := le_mul_scatterSize A.comm.size_pos A.nbytes
    have := Nat.mul_le_mul_right A.scatterSize (le_of_not_gt hn)
    omega
  have hv1 : 1 < A.n := by omega
  have hrecv := phase_recv hone hv1 (k := 0) rfl (show 1 * A.scatterSize < A.nbytes by omega)
  obtain ⟨b', hsend⟩ := hsound.lengths _ (A.rank_lt hv1) _ _ _ hrecv
  obtain ⟨k, hsends, -, hcnt, hdst⟩ := send_mem_phase hone A.comm.size_pos hsend
  -- the only send of the root to that rank is the one of the lowest bit
  have hbit : 1 = 0 + 2 ^ k := by
    have h := congrArg A.rel hdst
    rwa [A.rel_rank hv1, A.rel_rank hsends.2.1] at h
  obtain rfl : k = 0 := by
    by_contra hk
    have := Nat.pow_le_pow_right (show 0 < 2 by decide) (Nat.one_le_iff_ne_zero.mpr hk)
    omega
  rw [sendSize_zero_of_lt hsize hlt] at hcnt
  omega

end BcastCall

/-! ## For which sizes -/

theorem le_two_mul_scatterSize_iff {n nbytes : Nat} (hn : 0 < n) :
    nbytes ≤ 2 * scatterSize n nbytes ↔ n ≤ 2 ∨ nbytes ≤ 2 ∨ (n = 3 ∧ nbytes = 4) := by
  constructor
  · intro hle
    have hmul : n * scatterSize n nbytes ≤ nbytes + n - 1 := Nat.mul_div_le ..
    by_contra hcon
    obtain ⟨m, rfl⟩ : ∃ m, n = m + 3 := ⟨n - 3, by omega⟩
    rw [Nat.add_mul] at hmul
    -- three bytes need a block of two, and `n - 2` such blocks are too many
    have hblock : m * 2 ≤ m * scatterSize (m + 3) nbytes := Nat.mul_le_mul_left _ (by omega)
    obtain rfl : m = 0 := by omega
    have hsize : scatterSize 3 nbytes = (nbytes + 3 - 1) / 3 := rfl
    omega
  · rintro (h | h | ⟨rfl, rfl⟩)
    · exact (le_mul_scatterSize hn nbytes).trans (Nat.mul_le_mul_right _ h)
    · rcases Nat.eq_zero_or_pos nbytes with rfl | hpos
      · exact Nat.zero_le _
      · have := scatterSize_pos hn hpos
        omega
    · decide

/-- In the scatter phase the lengths match and every rank sends what it holds just for two ranks at most, for two
bytes at most, and for four bytes on three ranks. -/
theorem scatter_sound_iff (buf : CclBuffer) (root nbytes : Nat) (comm : CclComm) (hroot : root < comm.size) :
    ScatterSound buf root nbytes comm ↔ comm.size ≤ 2 ∨ nbytes ≤ 2 ∨ (comm.size = 3 ∧ nbytes = 4) := by
  let A : BcastCall := ⟨⟨comm, root, hroot⟩, fun _ => buf, buf, nbytes⟩
  rw [← le_two_mul_scatterSize_iff comm.size_pos]
  constructor
  · intro hsound
    by_contra hle
    exact BcastCall.not_scatterSound_of_lt (A := A) (fun _ => rfl) (lt_of_not_ge hle) hsound
  · exact BcastCall.scatterSound_of_le (A := A) fun _ => rfl

/-- Four bytes on three ranks: two blocks, and one message. -/
theorem scatter_four_on_three : 0 < 3 ∧ ScatterSound ⟨.user 0, 0⟩ 0 4 ⟨3, by decide, by decide⟩ :=
  ⟨by decide, (scatter_sound_iff _ _ _ _ (by decide)).mpr (.inr (.inr ⟨rfl, rfl⟩))⟩

/-- Four bytes on four ranks: rank 1 waits for three bytes, and the root sends it one. -/
theorem scatter_four_on_four : .recv ⟨.user 0, 1⟩ 3 0 ∈ scatterPhase ⟨.user 0, 0⟩ 0 4 ⟨4, by decide, by decide⟩ 1 ∧
      (scatterPhase ⟨.user 0, 0⟩ 0 4 ⟨4, by decide, by decide⟩ 0) = [.send ⟨.user 0, 2⟩ 2 2, .send ⟨.user 0, 1⟩ 1 1] ∧
      ¬ ScatterSound ⟨.user 0, 0⟩ 0 4 ⟨4, by decide, by decide⟩ :=
  ⟨by decide, by decide, BcastCall.not_scatterSound_of_lt
    (A := ⟨⟨⟨4, by decide, by decide⟩, 0, by decide⟩, fun _ => ⟨.user 0, 0⟩, ⟨.user 0, 0⟩, 4⟩) (fun _ => rfl) (by decide)⟩

end OneCcl
