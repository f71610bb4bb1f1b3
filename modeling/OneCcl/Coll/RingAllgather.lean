import OneCcl.Sched.Rounds
import OneCcl.Reduction.Rotate

/-!
# A ring that gathers blocks

Every rank has one block of a buffer, and in step `t` it sends to the right what it got in step `t - 1` (its own block
first) and gets from the left the block `t + 1` ranks away. The collectives that gather in a ring differ in where the
blocks lie, in the order of a rank's two messages and in whether they leave out empty ones: here is the ring with these
as parameters, and what it leaves (`GatherRing.run`): in every rank's block `b` what rank `b` had there.
-/

namespace OneCcl

open Async List Reduction

/-- The blocks of a ring: rank `b`'s is at `off b` of every rank's `buf`. -/
structure GatherRing where
  sendFirst : Bool
  skip : Bool
  buf : CclBuffer
  off : Nat → Nat
  cnt : Nat → Nat
  n : Nat

namespace GatherRing

section

variable (G : GatherRing)

/-- Where rank `b`'s block is. -/
abbrev block (b : Nat) : CclBuffer := G.buf + G.off b

/-- The receive of step `t`. -/
def recv (t r : Nat) : List EntryKind :=
  if G.skip ∧ G.cnt (rotDown G.n r (t + 1)) = 0 then []
  else [.recv (G.block (rotDown G.n r (t + 1))) (G.cnt (rotDown G.n r (t + 1))) (rotDown G.n r 1)]

/-- The send of step `t`. -/
def send (t r : Nat) : List EntryKind :=
  if G.skip ∧ G.cnt (rotDown G.n r t) = 0 then []
  else [.send (G.block (rotDown G.n r t)) (G.cnt (rotDown G.n r t)) (rotUp G.n r 1)]

/-- What a rank does in step `t` of the ring. -/
def kinds (t r : Nat) : List EntryKind :=
  if r < G.n then if G.sendFirst then G.send t r ++ G.recv t r else G.recv t r ++ G.send t r else []

def rounds (m : Nat) : List SchedRound := (range m).map fun t => .ofKinds true (G.kinds t)

def Apart : Prop := ∀ b < G.n, ∀ b' < G.n, b ≠ b' → PieceApart (G.block b, G.cnt b) (G.block b', G.cnt b')

end

variable {G : GatherRing} {t r m j : Nat} {k : EntryKind} {a : BufSrc × Nat}

theorem mem_kinds : k ∈ G.kinds t r ↔ r < G.n ∧ (k ∈ G.send t r ∨ k ∈ G.recv t r) := by
  unfold kinds
  by_cases hr : r < G.n
  · cases G.sendFirst <;> simp [hr, or_comm]
  · simp [hr]

theorem mem_send : k ∈ G.send t r ↔ ¬ (G.skip ∧ G.cnt (rotDown G.n r t) = 0) ∧
      k = .send (G.block (rotDown G.n r t)) (G.cnt (rotDown G.n r t)) (rotUp G.n r 1) := by
  unfold send
  split <;> simp_all

theorem mem_recv : k ∈ G.recv t r ↔ ¬ (G.skip ∧ G.cnt (rotDown G.n r (t + 1)) = 0) ∧
      k = .recv (G.block (rotDown G.n r (t + 1))) (G.cnt (rotDown G.n r (t + 1))) (rotDown G.n r 1) := by
  unfold recv
  split <;> simp_all

theorem kinds_good (hblocks : G.Apart) (ht : t + 1 < G.n) : KindsGood (G.kinds t) G.n := by
  refine kindsGood_beside (fun r => if r < G.n then G.send t r else [])
    (fun r => if r < G.n then G.recv t r else []) (fun r hr => if_neg (by omega)) (fun r => ?_)
    (fun r => ?_) (fun r => ?_) fun r k hk k' hk' => ?_
  · unfold kinds
    split
    · cases G.sendFirst
      · exact .inr rfl
      · exact .inl rfl
    · exact .inl rfl
  · split
    next hr =>
      -- the right neighbour's block of the step is the sender's
      have hd := rotUp_lt hr (show 1 < G.n by omega)
      rw [send]
      split
      next h => exact .inl rfl
      next h =>
        rw [← rotDown_succ_rotUp hr ht] at h
        refine .inr ⟨_, _, _, _, rfl, (if_pos hd).trans (if_neg h), ?_⟩
        rw [rotDown_succ_rotUp hr ht, rotDown_rotUp hr (show 1 < G.n by omega)]
        rfl
    next => exact .inl rfl
  · split
    next hr =>
      have hs := rotDown_lt hr (show 1 < G.n by omega)
      rw [recv]
      split
      next h => exact .inl rfl
      next h =>
        refine .inr ⟨_, _, _, G.block (rotDown G.n r (t + 1)), rfl, rfl, (if_pos hs).trans ?_⟩
        rw [send, rotDown_one_rotDown hr ht, if_neg h, rotUp_rotDown hr (by omega)]
    next => exact .inl rfl
  · -- what is received and what is sent are different blocks
    obtain ⟨hr, hk⟩ := mem_ite_nil_right.mp hk
    rw [(mem_recv.mp hk).2, (mem_send.mp (mem_ite_nil_right.mp hk').2).2]
    refine ⟨fun p hp q hq => ?_, forall_mem_nil _⟩
    rw [mem_singleton.mp hp, mem_singleton.mp hq]
    exact hblocks _ (rotDown_lt hr ht) _ (rotDown_lt hr (by omega))
      fun he => absurd (rotDown_inj ht (by omega) he) (by omega)

theorem rounds_good (hblocks : G.Apart) (hm : m < G.n) {R : SchedRound}
    (hR : R ∈ G.rounds m) : ∃ kinds, KindsGood kinds G.n ∧ R = .ofKinds true kinds := by
  obtain ⟨t, ht, rfl⟩ := mem_map.mp hR
  have ht := mem_range.mp ht
  exact ⟨_, kinds_good hblocks (by omega), rfl⟩

theorem rounds_succ (m r : Nat) :
    (G.rounds (m + 1)).flatMap (· r) = (G.rounds m).flatMap (· r) ++ entriesOf true (G.kinds m r) := by
  rw [rounds, range_succ, map_append, flatMap_append]
  exact congrArg _ (flatMap_singleton ..)

/-! ## What the ring forwards -/

/-- **A block is forwarded after it was received**: what a rank sends is its own block, or a block it receives in the
step before, with a barrier between the two. -/
theorem forward {i : Nat} (hm : m < G.n) {e : SchedEntry} {b : CclBuffer} {len dst : Nat}
    (he : ((G.rounds m).flatMap (· r))[i]? = some e) (hsend : e.kind = .send b len dst) :
    r < G.n ∧ ∃ t < m, b = G.block (rotDown G.n r t) ∧ len = G.cnt (rotDown G.n r t) ∧ dst = rotUp G.n r 1 ∧
      (t = 0 ∨ ∃ j k e' e'', j ≤ k ∧ k < i ∧
        ((G.rounds m).flatMap (· r))[j]? = some e' ∧ e'.kind = .recv b len (rotDown G.n r 1) ∧
        ((G.rounds m).flatMap (· r))[k]? = some e'' ∧ e''.barrier = true) := by
  induction m with
  | zero => cases he
  | succ m ih =>
    rw [rounds_succ] at he ⊢
    rcases lt_or_ge i ((G.rounds m).flatMap (· r)).length with hi | hi
    · rw [getElem?_append_left hi] at he
      obtain ⟨hr, t, ht, h1, h2, h3, h4⟩ := ih (by omega) he
      refine ⟨hr, t, by omega, h1, h2, h3, h4.imp_right ?_⟩
      rintro ⟨j, k, e', e'', hjk, hki, hj, hrecv, hk, hbar⟩
      refine ⟨j, k, e', e'', hjk, hki, ?_, hrecv, ?_, hbar⟩
      · rw [getElem?_append_left (by omega), hj]
      · rw [getElem?_append_left (by omega), hk]
    · rw [getElem?_append_right hi] at he
      obtain ⟨hr, hk⟩ := mem_kinds.mp (mem_entriesOf (mem_of_getElem? he))
      rw [hsend] at hk
      have hk := hk.resolve_right fun h => absurd (mem_recv.mp h).2 nofun
      obtain ⟨hkeep, hk⟩ := mem_send.mp hk
      obtain ⟨rfl, rfl, rfl⟩ := EntryKind.send.inj hk
      refine ⟨hr, m, by omega, rfl, rfl, rfl, ?_⟩
      cases m with
      | zero => exact .inl rfl
      | succ m =>
        right
        -- the receive of the step before, and the barrier at that step's end
        have hmem : EntryKind.recv (G.block (rotDown G.n r (m + 1))) (G.cnt (rotDown G.n r (m + 1))) (rotDown G.n r 1) ∈
            G.kinds m r :=
          mem_kinds.mpr ⟨hr, .inr (mem_recv.mpr ⟨hkeep, rfl⟩)⟩
        have hmap := hmem
        rw [← map_kind_entriesOf true (G.kinds m r)] at hmap
        obtain ⟨e', he', hkind⟩ := mem_map.mp hmap
        obtain ⟨j, hj⟩ := getElem?_of_mem he'
        obtain ⟨e'', hlast, hbar⟩ := getLast?_entriesOf true _ (ne_nil_of_mem hmem)
        have hjlt := lt_of_get hj
        rw [rounds_succ, length_append] at hi
        rw [rounds_succ]
        refine ⟨((G.rounds m).flatMap (· r)).length + j,
          ((G.rounds m).flatMap (· r)).length +
            ((entriesOf true (G.kinds m r)).length - 1), e', e'', by omega, by omega, ?_,
          hkind, ?_, hbar⟩
        · rw [append_assoc, getElem?_append_right (by omega), Nat.add_sub_cancel_left,
            getElem?_append_left hjlt, hj]
        · rw [append_assoc, getElem?_append_right (by omega), Nat.add_sub_cancel_left,
            getElem?_append_left (by omega), ← getLast?_eq_getElem?, hlast]

/-! ## What the ring leaves -/

variable {α : Type} (op : α → α → α)

theorem exec_at (hblocks : G.Apart) (ht : t + 1 < G.n) (σ : Nat → Mem α) (hr : r < G.n)
    (hj : j < G.cnt (rotDown G.n r (t + 1))) : (SchedRound.ofKinds true (G.kinds t)).exec op σ r
        (G.buf.at (G.off (rotDown G.n r (t + 1)) + j)) =
      σ (rotDown G.n r 1) (G.buf.at (G.off (rotDown G.n r (t + 1)) + j)) := by
  have hl := rotDown_lt hr (show 1 < G.n by omega)
  have hkeep : ¬ (G.skip ∧ G.cnt (rotDown G.n r (t + 1)) = 0) := fun h => by omega
  have hrecv : (G.kinds t r).filter (·.sentTo.isNone) =
      [.recv (G.block (rotDown G.n r (t + 1))) (G.cnt (rotDown G.n r (t + 1))) (rotDown G.n r 1)] := by
    unfold kinds send recv
    rw [if_pos hr, if_neg hkeep]
    cases G.sendFirst <;> split <;> simp [EntryKind.sentTo]
  have hsend : .send (G.block (rotDown G.n r (t + 1))) (G.cnt (rotDown G.n r (t + 1))) r ∈
      G.kinds t (rotDown G.n r 1) := by
    refine mem_kinds.mpr ⟨hl, .inl (mem_send.mpr ?_)⟩
    rw [rotDown_one_rotDown hr ht, rotUp_rotDown hr (by omega)]
    exact ⟨hkeep, rfl⟩
  rw [exec_recv_beside op true σ (kinds_good hblocks ht) hrecv hsend, ← CclBuffer.add_at, store_load_at hj]

theorem exec_frame (hblocks : G.Apart) (ht : t + 1 < G.n) (σ : Nat → Mem α)
    (ha : a ∉ region (G.block (rotDown G.n r (t + 1))) (G.cnt (rotDown G.n r (t + 1)))) :
    (SchedRound.ofKinds true (G.kinds t)).exec op σ r a = σ r a := by
  refine (kinds_good hblocks ht).roomy.exec_frame op true σ fun k hk p hp => ?_
  rcases (mem_kinds.mp hk).2 with h | h
  · rw [(mem_send.mp h).2] at hp
    cases hp
  · rw [(mem_recv.mp h).2] at hp
    rw [mem_singleton.mp hp]
    exact ha

/-- **After `m` steps** a rank has its own block and those of the `m` ranks to its left. -/
theorem run (hblocks : G.Apart) (σ : Nat → Mem α) (hm : m < G.n) {k : Nat} (hr : r < G.n)
    (hk : k ≤ m) (hj : j < G.cnt (rotDown G.n r k)) :
    execRounds op (G.rounds m) σ r (G.buf.at (G.off (rotDown G.n r k) + j)) =
      σ (rotDown G.n r k) (G.buf.at (G.off (rotDown G.n r k) + j)) := by
  induction m generalizing r k with
  | zero =>
    obtain rfl : k = 0 := by omega
    rw [rotDown_zero]
    rfl
  | succ m ih =>
    rw [rounds, range_succ, map_append, map_singleton, execRounds_append]
    show SchedRound.exec op _ _ _ _ = _
    rcases hk.lt_or_eq with hlt | rfl
    · -- a block the rank has already is not the one it gets
      have hnot : G.buf.at (G.off (rotDown G.n r k) + j) ∉
          region (G.block (rotDown G.n r (m + 1))) (G.cnt (rotDown G.n r (m + 1))) := by
        rw [← CclBuffer.add_at]
        refine Set.disjoint_left.mp (PieceApart.disjoint (hblocks _ (rotDown_lt hr (by omega)) _
          (rotDown_lt hr hm) fun he => ?_)) (at_mem_region.mpr hj)
        exact absurd (rotDown_inj (by omega) hm he) (by omega)
      rw [exec_frame op hblocks hm _ hnot]
      exact ih (by omega) hr (by omega) hj
    · have hl := rotDown_lt hr (show 1 < G.n by omega)
      have hblock := rotDown_one_rotDown hr hm
      rw [exec_at op hblocks hm _ hr hj, ← hblock]
      exact ih (by omega) hl (Nat.le_refl m) (hblock ▸ hj)

theorem run_frame (hblocks : G.Apart) (σ : Nat → Mem α) (hm : m < G.n) (hr : r < G.n)
    (ha : ∀ b < G.n, a ∉ region (G.block b) (G.cnt b)) :
    execRounds op (G.rounds m) σ r a = σ r a := by
  induction m with
  | zero => rfl
  | succ m ih =>
    rw [rounds, range_succ, map_append, map_singleton, execRounds_append]
    show SchedRound.exec op _ _ _ _ = _
    rw [exec_frame op hblocks hm _ (ha _ (rotDown_lt hr hm))]
    exact ih (by omega)

/-- **The ring leaves in every rank's block `b` what rank `b` had there.** -/
theorem run_all (hblocks : G.Apart) (σ : Nat → Mem α) (hr : r < G.n) {b : Nat} (hb : b < G.n)
    (hj : j < G.cnt b) : execRounds op (G.rounds (G.n - 1)) σ r (G.buf.at (G.off b + j)) =
      σ b (G.buf.at (G.off b + j)) := by
  obtain ⟨k, hk, rfl⟩ := exists_rotDown hr hb
  exact run op hblocks σ (by omega) hr (by omega) hj

end GatherRing

end OneCcl
