import OneCcl.Coll.ScatterRingExec

/-!
# The contracts of the broadcasts

On one buffer the broadcast by scatter and ring is correct (`scatter_ring_bcast_correct`).

On two buffers it is not. A rank receives into `recv_buf` and sends on from `send_buf`, in the scatter and in the ring,
so that out of place its right neighbour gets whatever the caller left in a `send_buf` that is not to be read. A
communicator of one rank returns before the copy. `scatter_ring_broadcast_iff` says which calls come out right.
-/

namespace OneCcl

open Async Reduction

variable {α : Type} (op : α → α → α) (comm : CclComm) {root : Nat}

/-! ## One buffer -/

/-- **The broadcast on one buffer is correct**: at every size, for every root and every number of bytes, every run of
the schedules completes and leaves the root's data in every rank's buffer. -/
theorem scatter_ring_bcast_correct (buf : CclBuffer) (count dtypeSize tag : Nat) (eager : Nat → Nat → Bool)
    (mem : Nat → Mem α) (hroot : root < comm.size) : ∃ sched : Nat → Sched,
      (∀ r < comm.size, cclCollBuildScatterRingAllgatherBcast buf count dtypeSize root comm r (.new 0) = some (sched r)) ∧
      (schedNet op comm.size tag eager sched).Completes mem fun s => ∀ r < comm.size, ∀ i < dtypeSize * count,
        s.mem r (buf.at i) = mem root (buf.at i) := by
  by_cases hn : comm.size = 1
  · refine ⟨fun _ => .new 0, fun r _ => if_pos hn, (contract_of_nothing op tag eager mem).imp fun s hs r hr i _ => ?_⟩
    rw [hs r, show r = root by omega]
  · let A : BcastCall := ⟨⟨comm, root, hroot⟩, fun _ => buf, buf, dtypeSize * count⟩
    have hrounds := BcastCall.broadcastRounds_roomy (A := A) fun _ _ => .inl rfl
    obtain ⟨sched, hsched, hrun⟩ := contract_of_roomy
      (fun r hr => BcastCall.cclCollBuildScatterRingAllgatherBcast_entries (A := A) rfl rfl hr hn)
      (fun R hR => (hrounds R hR).1) (fun R hR => (hrounds R hR).2) op tag eager mem
    refine ⟨sched, hsched, hrun.imp fun s hs r hr i hi => ?_⟩
    rw [hs r]
    exact BcastCall.broadcastRounds_exec (A := A) (fun _ _ => .inl rfl) op (show 2 ≤ comm.size by omega)
      ⟨fun _ _ _ => rfl, .inr (.inl rfl)⟩ mem hr hi

/-- Three ranks and four bytes, the root in the middle. -/
theorem scatter_ring_bcast_three : ∃ sched : Nat → Sched,
      (∀ r < 3, cclCollBuildScatterRingAllgatherBcast ⟨.user 0, 0⟩ 1 4 1 ⟨3, by decide, by decide⟩ r (.new 0) =
        some (sched r)) ∧
      (schedNet (· + ·) 3 0 (fun _ _ => false) sched).Completes (fun q _ => q) fun s =>
        ∀ r < 3, ∀ i < 4 * 1, s.mem r (CclBuffer.at ⟨.user 0, 0⟩ i) = 1 := by
  obtain ⟨sched, hsched, hrun⟩ := scatter_ring_bcast_correct (α := Nat) (· + ·) ⟨3, by decide, by decide⟩ ⟨.user 0, 0⟩ 1 4
    0 (fun _ _ => false) (fun q _ => q) (show 1 < 3 by decide)
  exact ⟨sched, hsched, hrun⟩

/-! ## Two buffers -/

/-- What the interface promises of a broadcast: every rank builds a schedule, every run completes, and leaves what the
root had in its send buffer in every rank's receive buffer. -/
def BroadcastRight (root : Nat) (sendBuf : Nat → CclBuffer) (recvBuf : CclBuffer) (count dtypeSize tag : Nat)
    (eager : Nat → Nat → Bool) (mem : Nat → Mem α) : Prop :=
  ∃ sched : Nat → Sched,
    (∀ r < comm.size, cclCollBuildScatterRingAllgatherBroadcast (sendBuf r) recvBuf count dtypeSize root comm r (.new 0) =
      some (sched r)) ∧
    (schedNet op comm.size tag eager sched).Completes mem fun s => ∀ r < comm.size, ∀ i < dtypeSize * count,
      s.mem r (recvBuf.at i) = mem root ((sendBuf root).at i)

section

variable {sendBuf : Nat → CclBuffer} {recvBuf : CclBuffer} {count dtypeSize tag : Nat} {eager : Nat → Nat → Bool}
  {mem : Nat → Mem α}

theorem broadcastRight_one (hn : comm.size = 1) (hroot : root < comm.size) :
    BroadcastRight op comm root sendBuf recvBuf count dtypeSize tag eager mem ↔
      ∀ i < dtypeSize * count, mem root (recvBuf.at i) = mem root ((sendBuf root).at i) := by
  have hgood : ∀ R ∈ ([] : List SchedRound), R.IsRoomy comm.size := nofun
  have hclosed : ∀ R ∈ ([] : List SchedRound), R.Closed := nofun
  constructor
  · rintro ⟨sched, hsched, hrun⟩
    have hentries : ∀ r < comm.size, (sched r).entries = ([] : List SchedRound).flatMap (· r) := by
      intro r hr
      have := hsched r hr
      rw [cclCollBuildScatterRingAllgatherBroadcast, if_pos hn] at this
      rw [← Option.some.inj this]
      rfl
    exact exec_of_completes (Q := fun m => ∀ r < comm.size, ∀ i < dtypeSize * count,
      m r (recvBuf.at i) = mem root ((sendBuf root).at i)) hgood hclosed hentries hrun root hroot
  · intro h
    refine ⟨fun _ => .new 0, fun r _ => if_pos hn, (contract_of_nothing op tag eager mem).imp fun s hs r hr i hi => ?_⟩
    rw [hs r, show r = root by omega]
    exact h i hi

theorem inplace_of_broadcastRight [Nontrivial α] (hroot : root < comm.size)
    (hbufs : CollBufs (sendBuf root) recvBuf (dtypeSize * count)) (hn : comm.size = 1) (hpos : 0 < dtypeSize * count)
    (h : ∀ mem : Nat → Mem α, BroadcastRight op comm root sendBuf recvBuf count dtypeSize tag eager mem) :
    sendBuf root = recvBuf := by
  obtain ⟨x, y, hxy⟩ := exists_pair_ne α
  have hval := (broadcastRight_one op comm hn hroot).mp (h fun _ a => if a = (sendBuf root).at 0 then x else y) 0 hpos
  rcases hbufs.apart with heq | hapart
  · exact heq
  · have hne : recvBuf.at 0 ≠ (sendBuf root).at 0 := fun heq =>
      Set.disjoint_left.mp hapart.disjoint (at_mem_region.mpr hpos) (heq ▸ at_mem_region.mpr hpos)
    simp only [if_neg hne, if_true] at hval
    exact absurd hval.symm hxy

end

namespace BcastCall

variable {A : BcastCall}
  (hbufs : ∀ r < A.n, A.sendBuf r = A.recvBuf ∨ PieceApart (A.sendBuf r, A.nbytes) (A.recvBuf, A.nbytes))
  {count dtypeSize : Nat} (hbytes : A.nbytes = dtypeSize * count) {tag : Nat} {eager : Nat → Nat → Bool}
  {mem : Nat → Mem α}

include hbufs hbytes in
theorem right_iff_exec (hn : A.n ≠ 1) :
    BroadcastRight op A.comm A.root A.sendBuf A.recvBuf count dtypeSize tag eager mem ↔ ∀ r < A.n, ∀ i < A.nbytes,
      execRounds op A.broadcastRounds mem r (A.recvBuf.at i) = mem A.root ((A.sendBuf A.root).at i) := by
  have hrounds := broadcastRounds_roomy hbufs
  have hbuild := fun r hr => cclCollBuildScatterRingAllgatherBroadcast_entries hbytes (r := r) hr hn
  rw [BroadcastRight, ← hbytes]
  constructor
  · rintro ⟨sched, hsched, hrun⟩
    have hentries : ∀ r < A.n, (sched r).entries = A.broadcastRounds.flatMap (· r) := by
      intro r hr
      obtain ⟨s, hs, he⟩ := hbuild r hr
      rw [hsched r hr] at hs
      rw [Option.some.inj hs, he]
    exact exec_of_completes (Q := fun m => ∀ r < A.n, ∀ i < A.nbytes,
      m r (A.recvBuf.at i) = mem A.root ((A.sendBuf A.root).at i)) (fun R hR => (hrounds R hR).1)
      (fun R hR => (hrounds R hR).2) hentries hrun
  · intro h
    obtain ⟨sched, hsched, hrun⟩ := contract_of_roomy hbuild (fun R hR => (hrounds R hR).1)
      (fun R hR => (hrounds R hR).2) op tag eager mem
    refine ⟨sched, hsched, hrun.imp fun s hs r hr i hi => ?_⟩
    rw [hs r]
    exact h r hr i hi

variable (mem) in
include hbufs in
/-- A rank between the root and its left neighbour that is out of place passes on its send buffer: the rank after it ends
with the first byte of that. -/
theorem stale_mid {v : Nat} (hv : 0 < v) (hlt : v + 1 < A.n) (hpos : 0 < A.nbytes)
    (hout : A.sendBuf (A.rank v) ≠ A.recvBuf) :
    execRounds op A.broadcastRounds mem (A.rank (v + 1)) (A.recvBuf.at 0) =
      mem (A.rank v) ((A.sendBuf (A.rank v)).at 0) := by
  have hleft : rotDown A.n (A.rank (v + 1)) 1 = A.rank v := A.left_rank hlt (Nat.succ_pos v)
  have hrel : rotDown A.n (A.rel (A.rank (v + 1))) (v + 1) = 0 := by
    rw [A.rel_rank hlt, rotDown, if_pos (Nat.le_refl _), Nat.sub_self]
  have hblock : 0 < A.blockSize 0 := by
    have := A.scatterSize_pos hpos
    unfold blockSize
    omega
  have hne : A.rank (v + 1) ≠ A.root := by
    intro h
    have := A.rel_rank hlt
    rw [h, A.rel_root] at this
    omega
  rw [← hleft] at hout ⊢
  exact broadcastRounds_stale hbufs op (by omega) mem (t := v) (A.rank_lt hlt) hlt hrel (by omega) (by omega) hout
    fun h => hne h.1

variable (mem) in
include hbufs in
theorem stale_last (hn : 2 ≤ A.n) (hin : A.sendBuf A.root = A.recvBuf) (htwo : 2 ≤ A.nbytes)
    (hout : A.sendBuf (A.rank (A.n - 1)) ≠ A.recvBuf) : ∃ i < A.nbytes,
      execRounds op A.broadcastRounds mem A.root (A.recvBuf.at i) =
        mem (A.rank (A.n - 1)) ((A.sendBuf (A.rank (A.n - 1))).at i) := by
  have hrel : rotDown A.n (A.rel A.root) (A.n - 2 + 1) = 1 := by
    rw [A.rel_root]
    unfold rotDown
    split <;> omega
  have hss : A.scatterSize < A.nbytes := scatterSize_lt hn htwo
  have hblock : 0 < A.blockSize 1 := by
    have := A.scatterSize_pos (show 0 < A.nbytes by omega)
    unfold blockSize
    omega
  refine ⟨_, hss, ?_⟩
  rw [← A.left_root] at hout ⊢
  exact broadcastRounds_stale hbufs op hn mem (t := A.n - 2) A.root_lt (by omega) hrel (by omega) (by omega) hout
    fun h => h.2 hin

include hbufs hbytes in
theorem forwards_of_right [Nontrivial α] (hn : 2 ≤ A.n) (hpos : 0 < A.nbytes)
    (h : ∀ mem : Nat → Mem α, BroadcastRight op A.comm A.root A.sendBuf A.recvBuf count dtypeSize tag eager mem) :
    Forwards A.sendBuf A.recvBuf A.nbytes A.comm A.root := by
  obtain ⟨x, y, hxy⟩ := exists_pair_ne α
  -- the root's memory holds `x` and every other rank's `y`, so that a `y` at the end did not come from the root
  obtain ⟨mem, hmem⟩ : ∃ mem : Nat → Mem α, ∀ q a, mem q a = if q = A.root then x else y :=
    ⟨fun q _ => _, fun _ _ => rfl⟩
  have hval := (right_iff_exec op hbufs hbytes (by omega)).mp (h mem)
  have hother : ∀ v, 0 < v → v < A.n → ∀ a, mem (A.rank v) a = y := by
    intro v hv hlt a
    rw [hmem, if_neg]
    intro heq
    have := A.rel_rank hlt
    rw [heq, A.rel_root] at this
    omega
  constructor
  · intro v hv hlt
    by_contra hout
    have hstale := stale_mid op hbufs mem hv hlt hpos hout
    rw [hval _ (A.rank_lt hlt) 0 hpos, hmem, if_pos rfl, hother v hv (Nat.lt_of_succ_lt hlt)] at hstale
    exact hxy hstale
  · by_contra! hno
    obtain ⟨hin, hout, htwo⟩ := hno
    obtain ⟨i, hi, hstale⟩ := stale_last op hbufs mem hn hin (by omega) hout
    rw [hval A.root A.root_lt i hi, hmem, if_pos rfl, hother _ (by omega) (by omega)] at hstale
    exact hxy hstale

end BcastCall

/-- **Which broadcasts come out right**: those of no bytes; on one rank those in place; and on more ranks those where
every rank between the root and its left neighbour is in place, and that neighbour too if the root is and there is a
second block. -/
theorem scatter_ring_broadcast_iff [Nontrivial α] (sendBuf : Nat → CclBuffer) (recvBuf : CclBuffer)
    (count dtypeSize tag : Nat) (eager : Nat → Nat → Bool) (hroot : root < comm.size)
    (hbufs : ∀ r < comm.size, CollBufs (sendBuf r) recvBuf (dtypeSize * count)) :
    (∀ mem : Nat → Mem α, BroadcastRight op comm root sendBuf recvBuf count dtypeSize tag eager mem) ↔
      dtypeSize * count = 0 ∨ (comm.size = 1 ∧ sendBuf root = recvBuf) ∨
        (2 ≤ comm.size ∧ Forwards sendBuf recvBuf (dtypeSize * count) comm root) := by
  let A : BcastCall := ⟨⟨comm, root, hroot⟩, sendBuf, recvBuf, dtypeSize * count⟩
  have hA : ∀ r < A.n, A.sendBuf r = A.recvBuf ∨ PieceApart (A.sendBuf r, A.nbytes) (A.recvBuf, A.nbytes) :=
    fun r hr => (hbufs r hr).apart
  constructor
  · intro h
    rcases Nat.eq_zero_or_pos (dtypeSize * count) with hzero | hpos
    · exact .inl hzero
    · by_cases hn : comm.size = 1
      · exact .inr (.inl ⟨hn, inplace_of_broadcastRight op comm hroot (hbufs root hroot) hn hpos h⟩)
      · have htwo : 2 ≤ A.n := show 2 ≤ comm.size by omega
        exact .inr (.inr ⟨htwo, BcastCall.forwards_of_right op hA rfl htwo hpos h⟩)
  · intro h mem
    by_cases hn : comm.size = 1
    · rw [broadcastRight_one op comm hn hroot]
      intro i hi
      rcases h with hzero | ⟨-, heq⟩ | ⟨htwo, -⟩
      · omega
      · rw [heq]
      · omega
    · refine (BcastCall.right_iff_exec op hA rfl hn).mpr ?_
      intro r hr i hi
      rcases h with hzero | ⟨hone, -⟩ | ⟨htwo, hfwd⟩
      · exact absurd hi (by rw [show A.nbytes = 0 from hzero]; exact Nat.not_lt_zero i)
      · exact absurd hone hn
      · exact BcastCall.broadcastRounds_exec hA op htwo hfwd mem hr hi

/-- The theorem at two ranks out of place: the root is out of place and no rank lies between. -/
theorem scatter_ring_broadcast_two :
    BroadcastRight (· + ·) ⟨2, by decide, by decide⟩ 0 (fun _ => ⟨.user 0, 0⟩) ⟨.user 1, 0⟩ 4 1 0 (fun _ _ => false)
      (fun q _ => q) :=
  (scatter_ring_broadcast_iff (α := Nat) (· + ·) ⟨2, by decide, by decide⟩ (fun _ => ⟨.user 0, 0⟩)
    ⟨.user 1, 0⟩ 4 1 0 (fun _ _ => false) (show 0 < 2 by decide)
    fun _ _ => ⟨⟨0, rfl⟩, ⟨1, rfl⟩, .inr (.inl (by decide))⟩).mpr
    (.inr (.inr ⟨Nat.le_refl 2, fun v hv hlt => absurd hlt (by show ¬ v + 1 < 2; omega), .inl (by decide)⟩)) _

/-- Three ranks out of place, three bytes, root `0`: rank `2` ends with what rank `1` had in its send buffer. -/
theorem scatter_ring_broadcast_three :
    ¬ BroadcastRight (· + ·) ⟨3, by decide, by decide⟩ 0 (fun _ => ⟨.user 0, 0⟩) ⟨.user 1, 0⟩ 3 1 0 (fun _ _ => false)
      (fun q _ => if q = 0 then 7 else 0) := by
  let A : BcastCall := ⟨⟨⟨3, by decide, by decide⟩, 0, by decide⟩, fun _ => ⟨.user 0, 0⟩, ⟨.user 1, 0⟩, 1 * 3⟩
  have hbufs : ∀ r < A.n, A.sendBuf r = A.recvBuf ∨ PieceApart (A.sendBuf r, A.nbytes) (A.recvBuf, A.nbytes) :=
    fun _ _ => .inr (.inl (show BufSrc.user 0 ≠ .user 1 by decide))
  intro h
  have hval := (BcastCall.right_iff_exec (· + ·) hbufs rfl (by decide)).mp h 2 (by decide) 0 (by decide)
  have hstale := BcastCall.stale_mid (v := 1) (· + ·) hbufs (fun q _ => if q = 0 then 7 else 0) (by decide) (by decide)
    (by decide) (by decide)
  cases hval.symm.trans hstale

end OneCcl
