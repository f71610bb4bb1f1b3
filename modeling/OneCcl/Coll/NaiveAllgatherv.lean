import OneCcl.Coll.AgvInplace
import OneCcl.Reduction.Rotate
import OneCcl.Sched.Groups

/-!
# Naive allgatherv

`ccl_coll_build_naive_allgatherv`: every rank sends its block to everybody, in the order of the distance, and
receives the blocks of the others where they belong. Blocks without elements do not travel, and both sides of a
pair know that from `recv_counts`. All messages run beside each other, and the caller adds the barrier.
-/

namespace OneCcl

open Async List Reduction

/-- The body of the loop over the distances. -/
def naiveAllgathervStep (recvBuf : CclBuffer) (sendCount : Nat) (recvCounts : Nat → Nat) (commSize rank : Nat)
    (sched : Sched) (idx : Nat) : Sched :=
  let dst := (rank + idx) % commSize
  let src := (rank + commSize - idx) % commSize
  let sched :=
    if 0 < sendCount then sched.create (.send (recvBuf + agvOffset recvCounts rank) sendCount dst) else sched
  if 0 < recvCounts src then sched.create (.recv (recvBuf + agvOffset recvCounts src) (recvCounts src) src) else sched

/-- `ccl_coll_build_naive_allgatherv` on host buffers. -/
def cclCollBuildNaiveAllgatherv (checkInplaceAliasing : Bool) (sendBuf : CclBuffer) (sendCount : Nat)
    (recvBuf : CclBuffer) (recvCounts : Nat → Nat) (commSize rank : Nat) (sched : Sched) : Option Sched :=
  if recvCounts rank ≠ sendCount then none
  else
    (isAllgathervInplace checkInplaceAliasing sendBuf sendCount recvBuf recvCounts rank commSize).map fun isInplace =>
      let sched :=
        if isInplace = false ∧ 0 < sendCount then
          sched.create (.copy sendBuf (recvBuf + agvOffset recvCounts rank) sendCount)
        else sched
      (range' 1 (commSize - 1)).foldl (naiveAllgathervStep recvBuf sendCount recvCounts commSize rank) sched

/-! ## The rounds -/

section

variable (recvBuf : CclBuffer) (counts : Nat → Nat) (n : Nat)

def agvSend (idx r : Nat) : List EntryKind :=
  if r < n ∧ 0 < counts r then [.send (recvBuf + agvOffset counts r) (counts r) (rotUp n r idx)] else []

def agvRecv (idx r : Nat) : List EntryKind :=
  if r < n ∧ 0 < counts (rotDown n r idx) then
    [.recv (recvBuf + agvOffset counts (rotDown n r idx)) (counts (rotDown n r idx)) (rotDown n r idx)]
  else []

def agvKinds (idx : Nat) : KindsRound := fun r => agvSend recvBuf counts n idx r ++ agvRecv recvBuf counts n idx r

def agvGroup : List KindsRound := (range' 1 (n - 1)).map (agvKinds recvBuf counts n)

variable {recvBuf counts n}

variable {r m idx j q : Nat} {k : EntryKind}

theorem naiveAllgathervSteps_entries (hr : r < n) (hm : m < n) (sched : Sched) :
    ((range' 1 m).foldl (naiveAllgathervStep recvBuf (counts r) counts n r) sched).entries =
      sched.entries ++ entriesOf false (((range' 1 m).map (agvKinds recvBuf counts n)).flatMap (· r)) := by
  induction m with
  | zero => exact (append_nil _).symm
  | succ m ih =>
    rw [range'_1_concat, foldl_append, map_append, flatMap_append, entriesOf_false_append,
      ← append_assoc, ← ih (by omega), foldl_cons, foldl_nil, map_singleton, flatMap_singleton]
    generalize (range' 1 m).foldl _ sched = s
    unfold naiveAllgathervStep agvKinds agvSend agvRecv
    rw [Nat.add_comm 1 m, mod_rotUp hr hm, mod_rotDown hr hm]
    by_cases h1 : 0 < counts r <;> by_cases h2 : 0 < counts (rotDown n r (m + 1)) <;>
      simp [h1, h2, hr, entriesOf, Sched.create]

variable (recvBuf counts) in
/-- **The schedule of the naive allgatherv**, when a rank's own block is in place: the group, still open. -/
theorem cclCollBuildNaiveAllgatherv_entries (check : Bool) (hr : r < n) (sched : Sched) :
    ∃ s, cclCollBuildNaiveAllgatherv check (recvBuf + agvOffset counts r) (counts r) recvBuf counts n r sched = some s ∧
      s.entries = sched.entries ++ entriesOf false ((agvGroup recvBuf counts n).flatMap (· r)) := by
  refine ⟨_, ?_, naiveAllgathervSteps_entries hr (by omega) sched⟩
  unfold cclCollBuildNaiveAllgatherv
  rw [if_neg (not_not_intro rfl), isAllgathervInplace_block]
  rfl

/-! ### The rounds are good -/

theorem mem_agvKinds (h : k ∈ agvKinds recvBuf counts n idx r) :
    r < n ∧ (k = .send (recvBuf + agvOffset counts r) (counts r) (rotUp n r idx) ∨
      k = .recv (recvBuf + agvOffset counts (rotDown n r idx)) (counts (rotDown n r idx)) (rotDown n r idx)) := by
  rcases mem_append.mp h with h | h
  · unfold agvSend at h
    split at h
    next hc => exact ⟨hc.1, .inl (mem_singleton.mp h)⟩
    next => cases h
  · unfold agvRecv at h
    split at h
    next hc => exact ⟨hc.1, .inr (mem_singleton.mp h)⟩
    next => cases h

theorem agvKinds_apart {idx' : Nat} (h0 : 0 < idx) (h : idx < n) (h0' : 0 < idx') (h' : idx' < n)
    {k' : EntryKind} (hk : k ∈ agvKinds recvBuf counts n idx r) (hk' : k' ∈ agvKinds recvBuf counts n idx' r)
    (hne : k.receivedFrom = none ∨ k'.receivedFrom = none ∨ idx ≠ idx') : k.Apart k' := by
  rcases (mem_agvKinds hk).2 with rfl | rfl <;> rcases (mem_agvKinds hk').2 with rfl | rfl
  · exact ⟨forall_mem_nil _, fun p hp q hq => absurd hq not_mem_nil⟩
  · refine ⟨forall_mem_nil _, fun p hp q hq => ?_⟩
    rw [mem_singleton.mp hp, mem_singleton.mp hq]
    exact agv_apart recvBuf counts (rotDown_ne h0' h').symm
  · refine ⟨fun p hp q hq => ?_, forall_mem_nil _⟩
    rw [mem_singleton.mp hp, mem_singleton.mp hq]
    exact agv_apart recvBuf counts (rotDown_ne h0 h)
  · have hidx : idx ≠ idx' := by
      rcases hne with hne | hne | hne
      · cases hne
      · cases hne
      · exact hne
    refine ⟨fun p hp q hq => ?_, forall_mem_nil _⟩
    rw [mem_singleton.mp hp, mem_singleton.mp hq]
    exact agv_apart recvBuf counts fun he => hidx (rotDown_inj h h' he)

theorem agvKinds_good (h0 : 0 < idx) (h : idx < n) : KindsGood (agvKinds recvBuf counts n idx) n := by
  refine kindsGood_beside (agvSend recvBuf counts n idx) (agvRecv recvBuf counts n idx) (fun r hr => ?_)
    (fun r => .inl rfl) (fun r => ?_) (fun r => ?_) fun r k hk k' hk' => ?_
  · unfold agvKinds agvSend agvRecv
    rw [if_neg (by omega), if_neg (by omega)]
    rfl
  · unfold agvSend
    split
    next hc =>
      have hd := rotDown_rotUp hc.1 h
      refine .inr ⟨_, _, _, _, rfl, if_pos ⟨rotUp_lt hc.1 h, hd.symm ▸ hc.2⟩, ?_⟩
      rw [hd]
      rfl
    next => exact .inl rfl
  · unfold agvRecv
    split
    next hc =>
      refine .inr ⟨_, _, _, recvBuf + agvOffset counts (rotDown n r idx), rfl, rfl,
        (if_pos ⟨rotDown_lt hc.1 h, hc.2⟩).trans ?_⟩
      rw [rotUp_rotDown hc.1 h]
    next => exact .inl rfl
  · refine agvKinds_apart h0 h h0 h (mem_append_right _ hk) (mem_append_left _ hk') (.inr (.inl ?_))
    unfold agvSend at hk'
    rw [mem_singleton.mp (mem_ite_nil_right.mp hk').2]
    rfl

theorem agvGroup_beside (r : Nat) : ((agvGroup recvBuf counts n).flatMap (· r)).Pairwise EntryKind.Beside := by
  have hbounds : ∀ idx ∈ range' 1 (n - 1), 0 < idx ∧ idx < n := by
    intro idx hidx
    have := mem_range'_1.mp hidx
    omega
  rw [agvGroup, flatMap_map]
  refine pairwise_flatMap.mpr ⟨fun idx hidx => ?_, ?_⟩
  · exact ((agvKinds_good (hbounds idx hidx).1 (hbounds idx hidx).2).apart r).imp .apart
  · refine (pairwise_lt_range' ..).imp_of_mem fun {idx idx'} hidx hidx' hlt k hk k' hk' => .apart ?_
    exact agvKinds_apart (hbounds idx hidx).1 (hbounds idx hidx).2 (hbounds idx' hidx').1 (hbounds idx' hidx').2 hk hk'
      (.inr (.inr hlt.ne))

/-! ### What the rounds compute -/

variable {α : Type} (op : α → α → α)

theorem agvKinds_exec (h0 : 0 < idx) (h : idx < n) (hr : r < n) (hj : j < counts (rotDown n r idx))
    (b : Bool) (σ : Nat → Mem α) : (SchedRound.ofKinds b (agvKinds recvBuf counts n idx)).exec op σ r
        (recvBuf.at (agvOffset counts (rotDown n r idx) + j)) =
      σ (rotDown n r idx) (recvBuf.at (agvOffset counts (rotDown n r idx) + j)) := by
  have hpos : 0 < counts (rotDown n r idx) := Nat.zero_lt_of_lt hj
  have hsend : .send (recvBuf + agvOffset counts (rotDown n r idx)) (counts (rotDown n r idx)) r ∈
      agvKinds recvBuf counts n idx (rotDown n r idx) := by
    refine mem_append_left _ ?_
    unfold agvSend
    rw [if_pos ⟨rotDown_lt hr h, hpos⟩, rotUp_rotDown hr h]
    exact mem_singleton.mpr rfl
  have hrecv : (agvKinds recvBuf counts n idx r).filter (·.sentTo.isNone) =
      [.recv (recvBuf + agvOffset counts (rotDown n r idx)) (counts (rotDown n r idx)) (rotDown n r idx)] := by
    rw [agvKinds, agvRecv, if_pos ⟨hr, hpos⟩, agvSend]
    split <;> rfl
  rw [exec_recv_beside op b σ (agvKinds_good h0 h) hrecv hsend, ← CclBuffer.add_at, store_load_at hj]

theorem agvKinds_frame (h0 : 0 < idx) (h : idx < n) (b : Bool) (σ : Nat → Mem α) {a : BufSrc × Nat}
    (ha : a ∉ region (recvBuf + agvOffset counts (rotDown n r idx)) (counts (rotDown n r idx))) :
    (SchedRound.ofKinds b (agvKinds recvBuf counts n idx)).exec op σ r a = σ r a := by
  refine (agvKinds_good h0 h).roomy.exec_frame op b σ fun k hk p hp => ?_
  rcases (mem_agvKinds hk).2 with rfl | rfl
  · cases hp
  · rw [mem_singleton.mp hp]
    exact ha

theorem agv_notMem {q' : Nat} (hne : q ≠ q') (hj : j < counts q) :
    recvBuf.at (agvOffset counts q + j) ∉ region (recvBuf + agvOffset counts q') (counts q') := by
  rw [← CclBuffer.add_at]
  exact Set.disjoint_left.mp (agv_apart recvBuf counts hne).disjoint (at_mem_region.mpr hj)

theorem agvRounds_exec (hm : m < n) (σ : Nat → Mem α) {k : Nat} (hr : r < n) (hk : k ≤ m) (hj : j < counts (rotDown n r k)) :
    execKinds op ((range' 1 m).map (agvKinds recvBuf counts n)) σ r
        (recvBuf.at (agvOffset counts (rotDown n r k) + j)) =
      σ (rotDown n r k) (recvBuf.at (agvOffset counts (rotDown n r k) + j)) := by
  induction m generalizing r k j with
  | zero =>
    obtain rfl : k = 0 := by omega
    rfl
  | succ m ih =>
    rw [range'_1_concat, map_append, execKinds_append, map_singleton, Nat.add_comm 1 m]
    show SchedRound.exec op _ _ r _ = _
    rcases hk.lt_or_eq with hlt | rfl
    · rw [agvKinds_frame op (Nat.succ_pos m) hm true _
        (agv_notMem (fun he => absurd (rotDown_inj (by omega) hm he) (by omega)) hj)]
      exact ih (by omega) hr (by omega) hj
    · have hsrc := rotDown_lt hr hm
      have hself : rotDown n (rotDown n r (m + 1)) 0 = rotDown n r (m + 1) := by
        rw [rotDown, if_pos (Nat.zero_le _), Nat.sub_zero]
      rw [agvKinds_exec op (Nat.succ_pos m) hm hr hj true]
      -- the sender's own block is as it was
      have := ih (by omega) hsrc (Nat.zero_le m) (j := j) (by rw [hself]; exact hj)
      exact this

/-- **After the naive allgatherv every rank has every block.** -/
theorem agvGroup_exec (σ : Nat → Mem α) (hr : r < n) (hq : q < n) (hj : j < counts q) :
    execKinds op (agvGroup recvBuf counts n) σ r (recvBuf.at (agvOffset counts q + j)) =
      σ q (recvBuf.at (agvOffset counts q + j)) := by
  obtain ⟨k, hk, rfl⟩ := exists_rotDown hr hq
  exact agvRounds_exec op (by omega) σ hr (by omega) hj

end

end OneCcl
