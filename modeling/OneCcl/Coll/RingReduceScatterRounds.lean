import OneCcl.Coll.RingReduceScatter

/-!
# The rounds of the ring reduce_scatter are good

Neighbours agree on every message (`RingCall.swap_good`), and nothing that runs together touches the same memory
(`RingCall.groups_grouped`): two pieces at different places of a rank never overlap, in whichever of its buffers they
are. A rank sends a chunk at its place and reduces into chunks at later places only, so nothing is reduced into
after it was sent (`RingCall.groups_late`).
-/

namespace OneCcl

open Async List Reduction

namespace RingCall

variable {A : RingCall} {r t u : Nat} {x y : CclBuffer} {e : SchedEntry}

/-! ## The groups are good -/

/-- The buffer a rank has beside `recv_buf`. -/
def other (A : RingCall) (r : Nat) : CclBuffer := if A.sendBuf r = A.recvBuf then ⟨.alloc 0 0, 0⟩ else A.sendBuf r

/-- The two buffers of a rank. -/
def Mine (A : RingCall) (r : Nat) (x : CclBuffer) : Prop := x = A.other r ∨ x = A.recvBuf

theorem apart_other (hr : r < A.n) : PieceApart (A.other r, A.count) (A.recvBuf, A.count) := by
  unfold other
  split
  next => exact .inl ((A.bufs r hr).recv_ne_alloc 0 0)
  next he => exact (A.bufs r hr).apart.resolve_left he

theorem Mine.pair (hr : r < A.n) (hx : A.Mine r x) (hy : A.Mine r y) : x = y ∨ PieceApart (x, A.count) (y, A.count) := by
  rcases hx with rfl | rfl <;> rcases hy with rfl | rfl
  · exact .inl rfl
  · exact .inr (apart_other hr)
  · exact .inr (PieceApart.symm (apart_other hr))
  · exact .inl rfl

/-- A step works on the two buffers only. -/
structure Within (A : RingCall) (r : Nat) (b : RsBufs) : Prop where
  sbuf : A.Mine r b.sbuf
  rbuf : A.Mine r b.rbuf
  reduceIn : b.reduceInBuf = A.other r
  reduceInout : b.reduceInoutBuf = A.recvBuf
  recvReduceLocal : A.Mine r b.recvReduceLocalBuf
  recvReduceComm : A.Mine r b.recvReduceCommBuf

theorem within (A : RingCall) (r idx : Nat) : A.Within r (A.stepBufs r idx) := by
  unfold stepBufs rsBufs tmpBuf
  by_cases h : A.sendBuf r = A.recvBuf
  · have ho : (⟨.alloc 0 0, 0⟩ : CclBuffer) = A.other r := (if_pos h).symm
    simp only [if_pos h]
    exact ⟨.inr rfl, .inl ho, ho, rfl, .inr rfl, .inl ho⟩
  · have ho : A.sendBuf r = A.other r := (if_neg h).symm
    simp only [if_neg h]
    refine ⟨?_, .inr rfl, ho, rfl, .inl ho, .inr rfl⟩
    show A.Mine r (if idx = 0 then _ else _)
    split
    · exact .inl ho
    · exact .inr rfl

section

variable (hr : r < A.n)

include hr

theorem place_pieces (hx : A.Mine r x) (hy : A.Mine r y) {u' : Nat} (hu : u < A.n * A.cc) (hu' : u' < A.n * A.cc)
    (hne : u ≠ u') : PieceApart (x + A.placeOffset r u, A.placeSize r u) (y + A.placeOffset r u', A.placeSize r u') :=
  .parts (hx.pair hr hy) (place_le hr hu) (place_le hr hu') (place_apart hr hu hu' hne)

variable {x : Swap}

theorem place_lt_recv (ht : t < A.times) : t + A.cc < A.n * A.cc := by
  have h : A.n * A.cc = A.times + A.cc := by
    rw [times, ← Nat.succ_mul, Nat.succ_eq_add_one, Nat.sub_add_cancel (by omega)]
  omega

theorem swap_apart (ht : t < A.times) (plain : Bool) (hx : A.swap plain t r = some x) :
    x.receive.Apart (.send x.buf x.sendCnt x.dst) := by
  rw [swap, if_pos hr] at hx
  cases hx
  have hw := A.within r (t / A.cc)
  have hlt := place_lt_recv hr ht
  have hne : t + A.cc ≠ t := (Nat.lt_add_of_pos_right A.cc_pos).ne'
  refine ⟨fun p hp q hq => ?_, fun p hp => ?_⟩
  · rw [mem_singleton.mp hq]
    cases plain with
    | true =>
      rw [mem_singleton.mp hp]
      exact place_pieces hr hw.rbuf hw.sbuf hlt (by omega) hne
    | false =>
      rcases mem_pair.mp hp with rfl | rfl
      · exact place_pieces hr hw.recvReduceLocal hw.sbuf hlt (by omega) hne
      · exact place_pieces hr hw.recvReduceComm hw.sbuf hlt (by omega) hne
  · cases plain <;> cases hp

theorem reduce_apart (hcc1 : 1 < A.cc) (ht : t + 1 < A.times)
    (hx : A.swap true (t + 1) r = some x) {k : EntryKind} (hk : k ∈ A.reduce t r) :
    EntryKind.Apart (.send x.buf x.sendCnt x.dst) k ∧ x.receive.Apart k := by
  rw [swap, if_pos hr] at hx
  cases hx
  rw [reduce_eq hr ((t + 1) / A.cc), mem_singleton] at hk
  subst hk
  have hw := A.within r ((t + 1) / A.cc)
  have hlt := place_lt_recv hr ht
  refine ⟨⟨forall_mem_nil _, fun p hp q hq => ?_⟩,
    ⟨fun p hp q hq => ?_, forall_mem_nil _⟩⟩
  · rw [mem_singleton.mp hp, mem_singleton.mp hq]
    exact place_pieces hr hw.sbuf (.inr hw.reduceInout) (by omega) (by omega) (by omega)
  · rw [mem_singleton.mp hp]
    rcases mem_pair.mp hq with rfl | rfl
    · exact place_pieces hr hw.rbuf (.inl hw.reduceIn) hlt (by omega) (by omega)
    · exact place_pieces hr hw.rbuf (.inr hw.reduceInout) hlt (by omega) (by omega)

end

/-- **Neighbours agree on every message.** -/
theorem swap_good (ht : t < A.times) (plain : Bool) : SwapGood (A.swap plain t) A.n := by
  refine swapGood_ite (fun r hr => ?_) (fun r hr => ⟨ringNext_lt hr, ringPrev_ringNext A.n r, ?_⟩) (fun r hr => ?_)
    fun r hr => ?_
  · cases plain <;> rfl
  · have h := (place_ringPrev (ringNext_lt hr) ht).2
    rw [ringPrev_ringNext] at h
    exact h.symm
  · exact ⟨ringPrev_lt hr, ringNext_ringPrev hr, (place_ringPrev hr ht).2⟩
  · exact swap_apart hr ht plain (if_pos hr)

theorem reduce_good (t : Nat) : KindsGood (A.reduce t) A.n :=
  kindsGood_ite (fun _ hr => hr) fun _ => rfl

variable (A) in
theorem groups_good : ∀ R ∈ A.groups.flatten, R.IsGood A.n := by
  intro R hR
  obtain ⟨G, hG, hR⟩ := mem_flatten.mp hR
  rcases mem_append.mp hG with hG | hG
  · obtain ⟨t, ht, rfl⟩ := mem_map.mp hG
    have hswap := fun plain => (swap_good (mem_range.mp ht) plain).kindsGood true
    unfold group at hR
    split at hR
    · split at hR
      · rw [mem_singleton.mp hR]
        exact (hswap true).isGood true
      · rcases mem_pair.mp hR with rfl | rfl
        · exact (hswap true).isGood false
        · exact (reduce_good (t - 1)).isGood true
    · rw [mem_singleton.mp hR]
      exact (hswap false).isGood true
  · rw [mem_singleton.mp hG, tail] at hR
    obtain ⟨-, hR⟩ := mem_ite_nil_right.mp hR
    rw [mem_singleton.mp hR]
    exact (reduce_good _).isGood true

/-- What runs together at one time is about different memory, and ends with a barrier. -/
theorem group_grouped (hr : r < A.n) (ht : t < A.times) :
    ((A.group t).flatMap (· r)).Pairwise (fun e e' => e.kind.Apart e'.kind) ∧
      ClosedEntries ((A.group t).flatMap (· r)) := by
  have hswap := fun plain => swap_apart hr ht plain (if_pos hr)
  rw [group_entries hr]
  dsimp only
  by_cases hcc1 : 1 < A.cc
  · by_cases h0 : t = 0
    · rw [if_pos hcc1, if_pos h0]
      exact ⟨pairwise_pair.mpr (hswap true).symm, .inl ⟨_, rfl, rfl⟩⟩
    · rw [if_pos hcc1, if_neg h0]
      obtain ⟨t, rfl⟩ : ∃ t', t = t' + 1 := ⟨t - 1, by omega⟩
      rw [Nat.add_sub_cancel, reduce_eq hr 0]
      have hmem : EntryKind.reduceLocal _ _ _ ∈ A.reduce t r := reduce_eq hr 0 t ▸ mem_singleton.mpr rfl
      have hred := reduce_apart hr hcc1 ht (if_pos hr) hmem
      refine ⟨pairwise_cons.mpr ⟨fun e he => ?_, pairwise_pair.mpr hred.2⟩, .inl ⟨_, rfl, rfl⟩⟩
      rcases mem_pair.mp he with rfl | rfl
      · exact (hswap true).symm
      · exact hred.1
  · rw [if_neg hcc1]
    exact ⟨pairwise_pair.mpr (hswap false).symm, .inl ⟨_, rfl, rfl⟩⟩

variable (A) in
theorem groups_grouped (r : Nat) : Grouped (groupsAt A.groups r) := by
  have hall : ∀ G ∈ groupsAt A.groups r, G.Pairwise (fun e e' => e.kind.Apart e'.kind) ∧ ClosedEntries G := by
    intro G hG
    obtain ⟨G', hG', rfl⟩ := mem_map.mp hG
    by_cases hr : r < A.n
    · rcases mem_append.mp hG' with hG' | hG'
      · obtain ⟨t, ht, rfl⟩ := mem_map.mp hG'
        exact group_grouped hr (mem_range.mp ht)
      · rw [mem_singleton.mp hG', tail]
        split
        · rw [flatMap_singleton, SchedRound.ofKinds, reduce_eq hr 0]
          exact ⟨pairwise_singleton .., .inl ⟨_, rfl, rfl⟩⟩
        · exact ⟨.nil, .inr fun _ he => absurd he not_mem_nil⟩
    · have hnil : G'.flatMap (· r) = [] := by
        refine flatMap_eq_nil_iff.mpr fun R hR => ?_
        obtain ⟨dest, orig, g⟩ := groups_good A R (mem_flatten.mpr ⟨G', hG', hR⟩)
        exact g.idle r (not_lt.mp hr)
      rw [hnil]
      exact ⟨.nil, .inr fun _ he => absurd he not_mem_nil⟩
  exact ⟨fun G hG => (hall G hG).1.imp .apart, fun G hG => (hall G hG).2⟩

/-! ## Nothing is reduced into after it was sent -/

/-- What is sent at a time is at its place. -/
theorem group_send (hr : r < A.n) (he : e ∈ (A.group t).flatMap (· r)) {buf : CclBuffer} {cnt dst : Nat}
    (hk : e.kind = .send buf cnt dst) : ∃ x, A.Mine r x ∧ buf = x + A.placeOffset r t ∧ cnt = A.placeSize r t := by
  have hw := A.within r (t / A.cc)
  rw [group_entries hr] at he
  rcases mem_cons.mp he with rfl | he
  · cases hk
    exact ⟨_, hw.sbuf, rfl, rfl⟩
  · split at he
    · split at he
      · rw [mem_singleton.mp he] at hk
        cases hk
      · rw [reduce_eq hr 0] at he
        rcases mem_cons.mp he with rfl | he
        · cases hk
        · rw [mem_singleton.mp he] at hk
          cases hk
    · rw [mem_singleton.mp he] at hk
      cases hk

/-- What is reduced into at a time is at a later place. -/
theorem group_reduced (hr : r < A.n) (ht : t < A.times) (he : e ∈ (A.group t).flatMap (· r)) {p : CclBuffer × Nat}
    (hp : e.kind.reduced = some p) :
    ∃ u, t < u ∧ u < A.n * A.cc ∧ p = (A.recvBuf + A.placeOffset r u, A.placeSize r u) := by
  have hw := A.within r (t / A.cc)
  have hlt := place_lt_recv hr ht
  rw [group_entries hr] at he
  rcases mem_cons.mp he with rfl | he
  · cases hp
  · split at he
    next hcc1 =>
      split at he
      next => rw [mem_singleton.mp he] at hp; cases hp
      next h0 =>
        rw [reduce_eq hr (t / A.cc)] at he
        rcases mem_cons.mp he with rfl | he
        · cases hp
        · rw [mem_singleton.mp he] at hp
          cases hp
          rw [hw.reduceInout]
          exact ⟨t - 1 + A.cc, by omega, by omega, rfl⟩
    next =>
      rw [mem_singleton.mp he] at hp
      cases hp
      refine ⟨t + A.cc, Nat.lt_add_of_pos_right A.cc_pos, hlt, ?_⟩
      unfold stepBufs rsBufs
      split <;> rfl

/-- **Nothing is reduced into after it was sent.** -/
theorem groups_late (hr : r < A.n) : (groupsAt A.groups r).flatten.Pairwise SentThenApart := by
  -- a chunk is sent at its place, and later reductions are at later places
  have key : ∀ {t t'}, t ≤ t' → t' < A.times → ∀ e ∈ (A.group t).flatMap (· r),
      ∀ u, t' < u → u < A.n * A.cc → ∀ buf cnt dst, e.kind = .send buf cnt dst →
        PieceApart (A.recvBuf + A.placeOffset r u, A.placeSize r u) (buf, cnt) := by
    intro t t' htt ht' e he u hu hu' buf cnt dst hk
    obtain ⟨x, hx, rfl, rfl⟩ := group_send hr he hk
    exact place_pieces hr (.inr rfl) hx hu' (by omega) (by omega)
  have hmain : ∀ {t t'}, t ≤ t' → t' < A.times → ∀ e ∈ (A.group t).flatMap (· r),
      ∀ e' ∈ (A.group t').flatMap (· r), SentThenApart e e' := by
    intro t t' htt ht' e he e' he' buf cnt dst p hk hp
    obtain ⟨u, hu, hu', rfl⟩ := group_reduced hr ht' he' hp
    exact key htt ht' e he u hu hu' buf cnt dst hk
  rw [groupsAt, groups, map_append, flatten_append, map_map, ← flatMap_def]
  refine pairwise_append.mpr ⟨pairwise_flatMap.mpr ⟨fun t ht => ?_, ?_⟩, ?_, fun e he e' he' => ?_⟩
  · exact pairwise_of_forall_mem_list fun e he e' he' =>
      hmain (le_rfl) (mem_range.mp ht) e he e' he'
  · refine pairwise_lt_range.imp_of_mem fun {t t'} _ ht' hlt e he e' he' => ?_
    exact hmain hlt.le (mem_range.mp ht') e he e' he'
  · rw [map_singleton, flatten_singleton, tail]
    split
    · rw [flatMap_singleton, SchedRound.ofKinds, reduce_eq hr 0]
      exact pairwise_singleton ..
    · exact .nil
  · rw [map_singleton, flatten_singleton, tail] at he'
    obtain ⟨t, ht, he⟩ := mem_flatMap.mp he
    have ht := mem_range.mp ht
    intro buf cnt dst p hk hp
    split at he'
    next hcc1 =>
      rw [flatMap_singleton, SchedRound.ofKinds, reduce_eq hr 0, entriesOf_singleton] at he'
      rw [mem_singleton.mp he'] at hp
      cases hp
      rw [(A.within r 0).reduceInout]
      have hlt := place_lt_recv hr (show A.times - 1 < A.times by omega)
      exact key (show t ≤ A.times - 1 by omega) (by omega) e he _ (by omega) hlt buf cnt dst hk
    next => cases he'

end RingCall

end OneCcl
