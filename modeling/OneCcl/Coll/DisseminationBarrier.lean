import Mathlib.Data.Nat.Log
import Mathlib.Data.Nat.ModEq
import OneCcl.Async.Shared
import OneCcl.Comm.Comm
import OneCcl.Sched.Children

/-!
# The dissemination barrier

`ccl_coll_build_dissemination_barrier`. In round `j` a rank sends an empty message to the rank `2 ^ j` places up and waits
for the one from the rank `2 ^ j` places down. Nobody counts anything: who is through round `j` has heard of the
`2 ^ (j + 1) - 1` ranks below, so after `⌈log₂ n⌉` rounds of everybody.

A program makes one barrier after the other. The ranks do so at their own pace, and messages of several barriers may be in
flight together, even with one tag. What a rank hears in a barrier is nevertheless sent in the same barrier
(`sent_of_received`), as long as a rank does not have two barriers with one tag running at once (`BarrierCalls.Apart`). So no
rank leaves a barrier that some rank has not entered (`barrier_waits_for_all`).
-/

namespace OneCcl

open Async List

variable {comm : CclComm} {j r k c i t : Nat}

/-- The loop of the barrier over the masks. -/
def disseminationLoop (size rank : Nat) : Nat → Nat → Sched → Sched
  | 0, _, sched => sched
  | fuel + 1, mask, sched =>
    if mask < size then
      let dst := (rank + mask) % size
      let src := (rank + size - mask) % size
      let sched := sched.create (.send .empty 0 dst)
      let sched := (sched.create (.recv .empty 0 src)).addBarrier
      disseminationLoop size rank fuel (mask <<< 1) sched
    else sched

/-- `ccl_coll_build_dissemination_barrier`. -/
def cclCollBuildDisseminationBarrier (comm : CclComm) (rank : Nat) (sched : Sched) : Sched :=
  if comm.size = 1 then sched else disseminationLoop comm.size rank comm.size 1 sched

/-! ## The schedule of a barrier -/

def CclComm.barrierRounds (comm : CclComm) : Nat := Nat.clog 2 comm.size

theorem CclComm.lt_barrierRounds : j < comm.barrierRounds ↔ 2 ^ j < comm.size :=
  Nat.lt_clog_iff_pow_lt (by decide)

/-- What a rank sends in round `j`. -/
def barrierSend (comm : CclComm) (r j : Nat) : SchedEntry := ⟨.send .empty 0 ((r + 2 ^ j) % comm.size), false⟩

/-- What a rank waits for in round `j`. -/
def barrierRecv (comm : CclComm) (r j : Nat) : SchedEntry := ⟨.recv .empty 0 ((r + comm.size - 2 ^ j) % comm.size), true⟩

theorem sender_add_two_pow (hr : r < comm.size) (hj : j < comm.barrierRounds) :
    ((r + comm.size - 2 ^ j) % comm.size + 2 ^ j) % comm.size = r := by
  have hlt := CclComm.lt_barrierRounds.mp hj
  rw [Nat.mod_add_mod, Nat.sub_add_cancel (by omega), Nat.add_mod_right, Nat.mod_eq_of_lt hr]

theorem round_eq_of_dst {j' : Nat} (hj : j < comm.barrierRounds) (hj' : j' < comm.barrierRounds)
    (h : (r + 2 ^ j) % comm.size = (r + 2 ^ j') % comm.size) : j = j' := by
  have hmod : Nat.ModEq comm.size (2 ^ j) (2 ^ j') := Nat.ModEq.add_left_cancel' r h
  have hpow := hmod.eq_of_lt_of_lt (CclComm.lt_barrierRounds.mp hj) (CclComm.lt_barrierRounds.mp hj')
  exact Nat.pow_right_injective (Nat.le_refl 2) hpow

theorem disseminationLoop_entries (r : Nat) {fuel : Nat} (hfuel : comm.barrierRounds - j ≤ fuel) (sched : Sched) :
    (disseminationLoop comm.size r fuel (2 ^ j) sched).entries = sched.entries ++
      (range' j (comm.barrierRounds - j)).flatMap fun j => [barrierSend comm r j, barrierRecv comm r j] := by
  induction fuel generalizing j sched with
  | zero =>
    rw [Nat.le_zero.mp hfuel]
    exact (append_nil _).symm
  | succ fuel ih =>
    unfold disseminationLoop
    by_cases hj : j < comm.barrierRounds
    · rw [if_pos (CclComm.lt_barrierRounds.mp hj), Nat.shiftLeft_eq, ← Nat.pow_succ]
      rw [ih (by omega), show comm.barrierRounds - j = comm.barrierRounds - (j + 1) + 1 by omega, range'_succ,
        flatMap_cons]
      simp only [Sched.addBarrier_create_entries, Sched.create_entries, barrierSend, barrierRecv, append_assoc,
        cons_append, nil_append]
    · rw [if_neg (fun h => hj (CclComm.lt_barrierRounds.mpr h)), show comm.barrierRounds - j = 0 by omega]
      exact (append_nil _).symm

theorem cclCollBuildDisseminationBarrier_entries (comm : CclComm) (r num : Nat) :
    (cclCollBuildDisseminationBarrier comm r (.new num)).entries =
      (range comm.barrierRounds).flatMap fun j => [barrierSend comm r j, barrierRecv comm r j] := by
  unfold cclCollBuildDisseminationBarrier
  split
  next hone =>
    rw [CclComm.barrierRounds, hone]
    rfl
  next =>
    have hle : comm.barrierRounds - 0 ≤ comm.size := Nat.clog_le_of_le_pow Nat.lt_two_pow_self.le
    rw [← Nat.pow_zero 2, disseminationLoop_entries r hle, Nat.sub_zero, ← range_eq_range']
    rfl

theorem getElem?_flatMap_pair {β : Type*} (f g : Nat → β) (m i : Nat) : ((range m).flatMap fun j => [f j, g j])[i]? =
      if i < 2 * m then some (if i % 2 = 0 then f (i / 2) else g (i / 2)) else none := by
  have hlen : ∀ m, ((range m).flatMap fun j => [f j, g j]).length = 2 * m := by
    intro m
    induction m with
    | zero => rfl
    | succ m ih => rw [range_succ, flatMap_append, length_append, ih]; rfl
  induction m with
  | zero => rfl
  | succ m ih =>
    rw [range_succ, flatMap_append]
    rcases lt_or_ge i (2 * m) with hi | hi
    · rw [getElem?_append_left (by rw [hlen]; exact hi), ih, if_pos hi, if_pos (show i < 2 * (m + 1) by omega)]
    · rw [getElem?_append_right (by rw [hlen]; exact hi), hlen]
      rcases lt_or_ge i (2 * (m + 1)) with hi' | hi'
      · rw [if_pos hi']
        obtain rfl | rfl : i = 2 * m ∨ i = 2 * m + 1 := by omega
        · simp
        · simp [Nat.add_mod, show (2 * m + 1) / 2 = m by omega]
      · rw [if_neg (by omega)]
        exact getElem?_eq_none (show 2 ≤ i - 2 * m by omega)

/-! ## A program of barriers -/

/-- A program that makes barrier calls on all ranks of a communicator, each at its own pace. Its `k`-th schedule has the
tag `tag (k + 1)`. Where `wait r k` holds, rank `r` goes on behind its `k`-th call only when all its barriers so far are
done, as it does behind a synchronous call. -/
structure BarrierCalls where
  comm : CclComm
  calls : Nat
  tag : Nat → Nat
  wait : Nat → Nat → Bool

namespace BarrierCalls

variable (B : BarrierCalls)

/-- What a rank runs: task 0 is the program that makes the calls, task `k + 1` the schedule of the `k`-th barrier. -/
def sched (r : Nat) : Nat → Sched
  | 0 => ⟨0, (range B.calls).map fun k => ⟨.subsched (k + 1), B.wait r k⟩, 0⟩
  | k + 1 => cclCollBuildDisseminationBarrier B.comm r (.new (k + 1))

def net {α : Type} (op : α → α → α) (credits : Nat × Nat → Nat) (eager : Nat × Nat → Nat → Bool) :
    Net (Nat × Nat) Nat Chan Nat (Mem α) (List α) :=
  { schedsNet op B.comm.size (B.calls + 1) B.tag eager B.sched with credits := credits }

/-- Barriers that share a tag do not overlap on any rank. -/
def Apart : Prop :=
  ∀ k k', k < k' → k' < B.calls → B.tag (k + 1) = B.tag (k' + 1) →
    ∀ r < B.comm.size, ∃ b, k ≤ b ∧ b < k' ∧ B.wait r b = true

variable {B}

theorem apart_of_synchronous (h : ∀ r k, B.wait r k = true) : B.Apart :=
  fun k _ hlt _ _ r _ => ⟨k, Nat.le_refl k, hlt, h r k⟩

theorem sched_call (hk : k < B.calls) : (B.sched r 0).entries[k]? = some ⟨.subsched (k + 1), B.wait r k⟩ := by
  show ((range B.calls).map _)[k]? = _
  rw [getElem?_map, getElem?_range hk]
  rfl

theorem sched_barrier (r k i : Nat) : (B.sched r (k + 1)).entries[i]? = if i < 2 * B.comm.barrierRounds then
    some (if i % 2 = 0 then barrierSend B.comm r (i / 2) else barrierRecv B.comm r (i / 2)) else none := by
  show (cclCollBuildDisseminationBarrier B.comm r (.new (k + 1))).entries[i]? = _
  rw [cclCollBuildDisseminationBarrier_entries, getElem?_flatMap_pair]

variable {α : Type} {op : α → α → α} {credits : Nat × Nat → Nat} {eager : Nat × Nat → Nat → Bool}

/-! ### Places of the net -/

theorem op_call (hr : r < B.comm.size) (hk : k < B.calls) :
    (B.net op credits eager).op ((r, 0), k) = some (.sub (r, k + 1)) :=
  schedsNet_op op eager hr (Nat.succ_pos _) (sched_call hk)

theorem barrier_call (hr : r < B.comm.size) (hk : k < B.calls) : (B.net op credits eager).barrier ((r, 0), k) = B.wait r k :=
  schedsNet_barrier op eager hr (Nat.succ_pos _) (sched_call hk)

theorem eq_call_of_sub {x : (Nat × Nat) × Nat} (h : (B.net op credits eager).op x = some (.sub (r, c))) :
    x = ((r, 0), c - 1) ∧ 0 < c := by
  obtain ⟨⟨r', c'⟩, i⟩ := x
  obtain ⟨-, -, rfl, b, he⟩ := (op_sub_iff op eager).mp h
  cases c' with
  | zero =>
    have hi : i < B.calls := by
      have := lt_of_get he
      simpa [sched] using this
    rw [sched_call hi] at he
    cases he
    exact ⟨rfl, Nat.succ_pos _⟩
  | succ k =>
    rw [sched_barrier] at he
    split at he
    · split at he <;> cases he
    · cases he

theorem get_send (hj : j < B.comm.barrierRounds) : (B.sched r (k + 1)).entries[2 * j]? = some (barrierSend B.comm r j) := by
  rw [sched_barrier, if_pos (by omega), Nat.mul_mod_right, if_pos rfl, Nat.mul_div_cancel_left _ (by decide)]

theorem get_recv (hj : j < B.comm.barrierRounds) :
    (B.sched r (k + 1)).entries[2 * j + 1]? = some (barrierRecv B.comm r j) := by
  rw [sched_barrier, if_pos (by omega), if_neg (by omega), show (2 * j + 1) / 2 = j by omega]

theorem eq_of_op {o : Op (Nat × Nat) Chan Nat (Mem α) (List α)} (h : (B.net op credits eager).op ((r, c), i) = some o) :
    r < B.comm.size ∧ ((∃ t, o = .sub t) ∨ ∃ k j, c = k + 1 ∧ k < B.calls ∧ j < B.comm.barrierRounds ∧
      (i = 2 * j ∧ (∃ read, o = .send ⟨r, (r + 2 ^ j) % B.comm.size, B.tag c⟩ read) ∨
        i = 2 * j + 1 ∧ ∃ fits store finish,
          o = .recv ⟨(r + B.comm.size - 2 ^ j) % B.comm.size, r, B.tag c⟩ fits store finish)) := by
  obtain ⟨hr, hc, e, he, ho⟩ := exists_entry_of_op op eager h
  refine ⟨hr, ?_⟩
  cases c with
  | zero =>
    have hi : i < B.calls := by
      have := lt_of_get he
      simpa [sched] using this
    cases (sched_call hi).symm.trans he
    exact .inl ⟨_, ho.symm⟩
  | succ k =>
    have he : (B.sched r (k + 1)).entries[i]? = some e := he
    rw [sched_barrier] at he
    split at he
    next hi =>
      refine .inr ⟨k, i / 2, rfl, Nat.lt_of_succ_lt_succ hc, by omega, ?_⟩
      split at he
      next hmod =>
        cases he
        exact .inl ⟨by omega, _, ho.symm⟩
      next hmod =>
        cases he
        exact .inr ⟨by omega, _, _, _, ho.symm⟩
    next => cases he

/-! ### One order on every channel -/

theorem Apart.dep (h : B.Apart) {k' i' : Nat} (hr : r < B.comm.size) (hkk : k < k') (hk' : k' < B.calls)
    (htag : B.tag (k + 1) = B.tag (k' + 1)) (hi : i < 2 * B.comm.barrierRounds) :
    (B.net op credits eager).Dep ((r, k + 1), i) ((r, k' + 1), i') := by
  obtain ⟨b, hkb, hbk, hwait⟩ := h k k' hkk hk' htag r hr
  have hlen : i < ((B.net op credits eager).prog (r, k + 1)).length := by
    have hget := (sched_barrier (B := B) r k i).trans (if_pos hi)
    exact lt_of_get (schedsNet_get op eager hr (by omega) hget)
  refine .wake (op_call hr hk') fun q hq => ?_
  obtain ⟨rfl, -⟩ := eq_call_of_sub hq
  refine .sub (op_call hr (by omega)) hlen (.barrier hkb hbk ?_)
  rw [barrier_call hr (by omega), hwait]

def taggedCalls (B : BarrierCalls) (t : Nat) : List Nat := (range B.calls).filter fun k => B.tag (k + 1) = t

theorem mem_taggedCalls : k ∈ B.taggedCalls t ↔ k < B.calls ∧ B.tag (k + 1) = t := by
  rw [taggedCalls, mem_filter, mem_range, decide_eq_true_eq]

theorem line_of_index {p : Op (Nat × Nat) Chan Nat (Mem α) (List α) → Bool} (h : B.Apart) (hr : r < B.comm.size)
    (hi : i < 2 * B.comm.barrierRounds)
    (hmem : ∀ x, (∃ o, (B.net op credits eager).op x = some o ∧ p o = true) ↔
      ∃ k < B.calls, B.tag (k + 1) = t ∧ x = ((r, k + 1), i)) :
    (B.net op credits eager).Line p ((B.taggedCalls t).map fun k => ((r, k + 1), i)) where
  mem x := by
    rw [hmem, mem_map]
    constructor
    · rintro ⟨k, hk, rfl⟩
      exact ⟨k, (mem_taggedCalls.mp hk).1, (mem_taggedCalls.mp hk).2, rfl⟩
    · rintro ⟨k, hk, ht, rfl⟩
      exact ⟨k, mem_taggedCalls.mpr ⟨hk, ht⟩, rfl⟩
  nodup := (nodup_range.filter _).map fun k k' hkk => by simpa using hkk
  order := by
    rw [pairwise_map]
    refine (pairwise_lt_range.filter _).imp_of_mem fun {k k'} hk hk' hlt => ?_
    rw [mem_taggedCalls] at hk hk'
    exact h.dep hr hlt hk'.1 (hk.2.trans hk'.2.symm) hi

variable (op credits eager)

theorem line_sends (h : B.Apart) (t : Nat) (hr : r < B.comm.size) (hj : j < B.comm.barrierRounds) :
    (B.net op credits eager).Line (Op.sendsOn ⟨(r + B.comm.size - 2 ^ j) % B.comm.size, r, t⟩)
      ((B.taggedCalls t).map fun k => (((r + B.comm.size - 2 ^ j) % B.comm.size, k + 1), 2 * j)) := by
  have hsrc : (r + B.comm.size - 2 ^ j) % B.comm.size < B.comm.size := Nat.mod_lt _ B.comm.size_pos
  refine line_of_index h hsrc (by omega) fun ⟨⟨r', c⟩, i⟩ => ?_
  constructor
  · rintro ⟨o, ho, hp⟩
    obtain ⟨-, ⟨t', rfl⟩ | ⟨k, j', rfl, hk, hj', ⟨rfl, read, rfl⟩ | ⟨rfl, fits, store, finish, rfl⟩⟩⟩ := eq_of_op ho
    · cases hp
    · obtain ⟨rfl, hdst, rfl⟩ := Chan.mk.inj (of_decide_eq_true hp)
      obtain rfl := round_eq_of_dst hj' hj (hdst.trans (sender_add_two_pow hr hj).symm)
      exact ⟨k, hk, rfl, rfl⟩
    · cases hp
  · rintro ⟨k, hk, rfl, hx⟩
    rw [hx]
    refine ⟨_, schedsNet_op op eager hsrc (by omega) (get_send hj), decide_eq_true ?_⟩
    exact congrArg (Chan.mk _ · _) (sender_add_two_pow hr hj)

theorem line_recvs (h : B.Apart) (t : Nat) (hr : r < B.comm.size) (hj : j < B.comm.barrierRounds) :
    (B.net op credits eager).Line (Op.recvsOn ⟨(r + B.comm.size - 2 ^ j) % B.comm.size, r, t⟩)
      ((B.taggedCalls t).map fun k => ((r, k + 1), 2 * j + 1)) := by
  refine line_of_index h hr (by omega) fun ⟨⟨r', c⟩, i⟩ => ?_
  constructor
  · rintro ⟨o, ho, hp⟩
    obtain ⟨hr', ⟨t', rfl⟩ | ⟨k, j', rfl, hk, hj', ⟨rfl, read, rfl⟩ | ⟨rfl, fits, store, finish, rfl⟩⟩⟩ := eq_of_op ho
    · cases hp
    · cases hp
    · obtain ⟨hsrc, rfl, rfl⟩ := Chan.mk.inj (of_decide_eq_true hp)
      -- both rounds lead from one sender to `r`
      have hdst := sender_add_two_pow hr hj'
      rw [hsrc] at hdst
      obtain rfl := round_eq_of_dst hj' hj (hdst.trans (sender_add_two_pow hr hj).symm)
      exact ⟨k, hk, rfl, rfl⟩
  · rintro ⟨k, hk, rfl, hx⟩
    rw [hx]
    exact ⟨_, schedsNet_op op eager hr (by omega) (get_recv hj), decide_eq_true rfl⟩

variable {op credits eager} {mem : Nat → Mem α} {s : State (Nat × Nat) Nat Chan (Mem α) (List α)}

/-- **What a rank hears in a barrier was sent in the same barrier.** -/
theorem sent_of_received (h : B.Apart) (hs : (B.net op credits eager).Reach mem s) (hr : r < B.comm.size)
    (hk : k < B.calls) (hj : j < B.comm.barrierRounds) (hp : Net.Passed s ((r, k + 1), 2 * j + 1)) :
    Net.Passed s (((r + B.comm.size - 2 ^ j) % B.comm.size, k + 1), 2 * j) := by
  obtain ⟨m, hm⟩ := getElem?_of_mem (mem_taggedCalls.mpr ⟨hk, rfl⟩ : k ∈ B.taggedCalls (B.tag (k + 1)))
  refine hs.line_send (line_sends op credits eager h (B.tag (k + 1)) hr hj)
    (line_recvs op credits eager h (B.tag (k + 1)) hr hj) (k := m) ?_ ?_ hp
  · rw [getElem?_map, hm]
    rfl
  · rw [getElem?_map, hm]
    rfl

/-! ### Who has heard of whom -/

theorem called_of_live (hs : (B.net op credits eager).Reach mem s) (hr : r < B.comm.size) (hk : k < B.calls)
    (h : s.stageAt ((r, k + 1), i) ≠ .idle) : s.stageAt ((r, 0), k) ≠ .idle := by
  rcases hs.ordered.woken _ h with hroot | ⟨p, hp, hlive⟩
  · exact absurd (op_call hr hk) (hroot _)
  · obtain ⟨rfl, -⟩ := eq_call_of_sub hp
    exact hlive

/-- **A rank that is through `j` rounds has heard of the `2 ^ j - 1` ranks below.** -/
theorem called_of_rounds (h : B.Apart) (hs : (B.net op credits eager).Reach mem s) (hk : k < B.calls)
    (hj : j ≤ B.comm.barrierRounds) (hr : r < B.comm.size) (hcall : s.stageAt ((r, 0), k) ≠ .idle)
    (hp : ∀ i < j, Net.Passed s ((r, k + 1), 2 * i + 1)) {r' d : Nat} (hr' : r' < B.comm.size) (hd : d < 2 ^ j)
    (hrd : (r' + d) % B.comm.size = r) : s.stageAt ((r', 0), k) ≠ .idle := by
  induction j generalizing r d with
  | zero =>
    obtain rfl : d = 0 := Nat.lt_one_iff.mp hd
    rw [Nat.add_zero, Nat.mod_eq_of_lt hr'] at hrd
    exact hrd ▸ hcall
  | succ j ih =>
    rcases lt_or_ge d (2 ^ j) with hlow | hhigh
    · exact ih (by omega) hr hcall (fun i hi => hp i (by omega)) hlow hrd
    · -- the rank `2 ^ j` places down sent in this round, so it is through the rounds before
      have hsent := sent_of_received h hs hr hk hj (hp j (Nat.lt_succ_self j))
      have hsrc : (r + B.comm.size - 2 ^ j) % B.comm.size < B.comm.size := Nat.mod_lt _ B.comm.size_pos
      refine ih (by omega) hsrc (called_of_live hs hsrc hk hsent.live) (fun i hi => ?_)
        (show d - 2 ^ j < 2 ^ j by rw [Nat.pow_succ] at hd; omega) ?_
      · refine .of_done (hs.ordered.cleared _ _ _ (State.lt_started hsent.live) (show 2 * i + 1 < 2 * j by omega) ?_ _
          (le_rfl))
        exact schedsNet_barrier op eager hsrc (by omega) (get_recv (by omega))
      · have hsum : (r' + (d - 2 ^ j) + 2 ^ j) % B.comm.size = r := by
          rwa [Nat.add_assoc, Nat.sub_add_cancel hhigh]
        have hmod : Nat.ModEq B.comm.size (r' + (d - 2 ^ j)) ((r + B.comm.size - 2 ^ j) % B.comm.size) :=
          Nat.ModEq.add_right_cancel' (2 ^ j) (hsum.trans (sender_add_two_pow hr hj).symm)
        exact hmod.trans (Nat.mod_mod ..)

end BarrierCalls

/-- **No rank leaves a barrier before every rank has entered it**: in every reachable state of every program of barriers
that share tags only where they do not overlap, a rank whose `k`-th barrier is done sees that every rank has started its
`k`-th barrier. -/
theorem barrier_waits_for_all {α : Type} (op : α → α → α) (B : BarrierCalls) (h : B.Apart) (credits : Nat × Nat → Nat)
    (eager : Nat × Nat → Nat → Bool) (mem : Nat → Mem α) (s : State (Nat × Nat) Nat Chan (Mem α) (List α))
    (hs : (B.net op credits eager).Reach mem s) (r r' k : Nat) (hr : r < B.comm.size) (hr' : r' < B.comm.size)
    (hk : k < B.calls) (hdone : s.stageAt ((r, 0), k) = .done) : s.stageAt ((r', 0), k) ≠ .idle := by
  have hall := hs.ordered.child _ _ (BarrierCalls.op_call hr hk) hdone
  have hcall : s.stageAt ((r, 0), k) ≠ .idle := by
    rw [hdone]
    exact Stage.noConfusion
  -- `r'` is some number of places below `r`, and less than `2 ^ ⌈log₂ n⌉` of them
  refine BarrierCalls.called_of_rounds h hs hk (le_rfl) hr hcall (fun i hi => ?_) hr'
    (show (r + B.comm.size - r') % B.comm.size < _ from ?_) ?_
  · refine .of_done (hall _ ?_)
    exact lt_of_get (schedsNet_get op eager hr (by omega) (BarrierCalls.get_recv hi))
  · exact (Nat.mod_lt _ B.comm.size_pos).trans_le (Nat.le_pow_clog (by decide) _)
  · rw [Nat.add_mod_mod, ← Nat.add_sub_assoc (by omega), Nat.add_sub_cancel_left, Nat.add_mod_right,
      Nat.mod_eq_of_lt hr]

/-- Two synchronous barriers of two ranks, with one tag. -/
def twoBarriers : BarrierCalls := ⟨.pair, 2, fun _ => 0, fun _ _ => true⟩

/-- The two ranks, over a transport that buffers. -/
def twoBarriersNet : Net (Nat × Nat) Nat Chan Nat (Mem Nat) (List Nat) :=
  twoBarriers.net (· + ·) (fun _ => maxFlowCredits) fun _ _ => true

theorem exists_barrier_done : ∃ s, twoBarriersNet.Reach (fun _ _ => 0) s ∧ s.stageAt ((0, 0), 0) = .done := by
  have hroot : ∀ r, twoBarriersNet.IsRoot (r, 0) :=
    fun r x hx => absurd (BarrierCalls.eq_call_of_sub hx).2 (by decide)
  have h1 : twoBarriersNet.Reach (fun _ _ => 0) _ :=
    .tail .refl (.postSub (t := (1, 0)) rfl ⟨.inl (hroot 1), nofun, by decide⟩)
  have h2 := h1.tail (.postSend (t := (1, 1)) rfl ⟨.inr ⟨((1, 0), 0), rfl, rfl⟩, nofun, by decide⟩)
  have h3 := h2.tail (.read (x := ((1, 1), 0)) rfl rfl (.inl rfl))
  have h4 := h3.tail (.postSub (t := (0, 0)) rfl ⟨.inl (hroot 0), nofun, by decide⟩)
  have h5 := h4.tail (.postSend (t := (0, 1)) rfl ⟨.inr ⟨((0, 0), 0), rfl, rfl⟩, nofun, by decide⟩)
  have h6 := h5.tail (.read (x := ((0, 1), 0)) rfl rfl (.inl rfl))
  have h7 := h6.tail (.doneSend (x := ((0, 1), 0)) rfl rfl (.inl rfl))
  have h8 := h7.tail (.postRecv (t := (0, 1)) rfl ⟨.inr ⟨((0, 0), 0), rfl, rfl⟩, by decide, by decide⟩)
  have h9 := h8.tail (.deliver (y := ((0, 1), 1)) (x := ((1, 1), 0)) rfl rfl ⟨0, rfl, rfl⟩ rfl rfl)
  have h10 := h9.tail (.doneRecv (y := ((0, 1), 1)) rfl rfl)
  have h11 := h10.tail (.doneSub (x := ((0, 0), 0)) rfl rfl (by decide))
  exact ⟨_, h11, rfl⟩

/-- Rank 0 is through its first barrier, and rank 1 has entered it. -/
theorem barrier_waits_for_rank_one :
    ∃ s, twoBarriersNet.Reach (fun _ _ => 0) s ∧ s.stageAt ((0, 0), 0) = .done ∧ s.stageAt ((1, 0), 0) ≠ .idle := by
  obtain ⟨s, hs, hdone⟩ := exists_barrier_done
  exact ⟨s, hs, hdone, barrier_waits_for_all _ twoBarriers (BarrierCalls.apart_of_synchronous fun _ _ => rfl) _ _ _ s hs 0 1 0
    (by decide) (by decide) (by decide) hdone⟩

end OneCcl
