import OneCcl.Coll.AgvInplace
import OneCcl.Coll.RingAllgather
import OneCcl.Sched.Groups
import OneCcl.Sched.Subscheds

/-!
# Ring allgatherv

`ccl_coll_build_ring_allgatherv`: the blocks travel around the ring, each cut into as many parts as there are partial
schedules, the last part with what is left over. A partial schedule is a ring of its own over its parts of the blocks
(`ringAllgatherv_entries`). The partial schedules run beside each other; out of place, they first wait for the copy of
the rank's block, which the first of them makes.
-/

namespace OneCcl

open Async List Reduction Parts TaskRound CclBuffer

variable {c c' b t i : Nat} {l : List SchedEntry} {e : SchedEntry} {k : EntryKind} {mainSched : Bool} {P : TaskRound}
  {sched : Nat → MainSched}

/-- `send_block_thread_counts`, `recv_block_thread_counts`: how much of a block a partial schedule has. -/
def blockThreadCount (blockCount schedCount sIdx : Nat) : Nat :=
  blockCount / schedCount + if sIdx = schedCount - 1 then blockCount % schedCount else 0

/-- `send_sched_offset`, `recv_sched_offset`: where in the block it begins. -/
def schedOffset (blockCount schedCount : Nat) : Nat → Nat
  | 0 => 0
  | sIdx + 1 => schedOffset blockCount schedCount sIdx + blockThreadCount blockCount schedCount sIdx

/-- The body of the loop over the partial schedules. -/
def ringAllgathervPart (recvBuf : CclBuffer) (recvCounts : Nat → Nat) (commSize rank schedCount sendBlockIdx
    recvBlockIdx sIdx : Nat) (sched : Sched) : Sched :=
  let src := (commSize + rank - 1) % commSize
  let dst := (commSize + rank + 1) % commSize
  let sbuf := recvBuf + agvOffset recvCounts sendBlockIdx
  let rbuf := recvBuf + agvOffset recvCounts recvBlockIdx
  let sendCount := blockThreadCount (recvCounts sendBlockIdx) schedCount sIdx
  let recvCount := blockThreadCount (recvCounts recvBlockIdx) schedCount sIdx
  let sched :=
    if sendCount ≠ 0 then
      sched.create (.send (sbuf + schedOffset (recvCounts sendBlockIdx) schedCount sIdx) sendCount dst)
    else sched
  let sched :=
    if recvCount ≠ 0 then
      sched.create (.recv (rbuf + schedOffset (recvCounts recvBlockIdx) schedCount sIdx) recvCount src)
    else sched
  sched.addBarrier

/-- The body of the loop over the steps, which moves `block_idx` to the left. -/
def ringAllgathervStep (recvBuf : CclBuffer) (recvCounts : Nat → Nat) (commSize rank : Nat) (x : MainSched × Nat) :
    MainSched × Nat :=
  let recvBlockIdx := (commSize + x.2 - 1) % commSize
  let subscheds := x.1.subscheds.mapIdx
    (ringAllgathervPart recvBuf recvCounts commSize rank x.1.subscheds.length x.2 recvBlockIdx)
  ({ x.1 with subscheds }, recvBlockIdx)

/-- The copy of the rank's block, which all partial schedules wait for. -/
def ringAllgathervCopy (mainSched isInplace : Bool) (sendBuf : CclBuffer) (sendCount : Nat) (recvBuf : CclBuffer)
    (recvCounts : Nat → Nat) (rank : Nat) (scheds : MainSched) : Option MainSched :=
  if isInplace = false ∧ 0 < sendCount then
    let subscheds := scheds.subscheds.modifyHead
      (·.create (.copy sendBuf (recvBuf + agvOffset recvCounts rank) sendCount))
    let scheds : MainSched := { scheds with subscheds }
    if mainSched then scheds.syncSubscheds else some scheds
  else some scheds

/-- `ccl_coll_build_ring_allgatherv` on host buffers. Without a main schedule there is one schedule to fill. -/
def cclCollBuildRingAllgatherv (mainSched checkInplaceAliasing : Bool) (sendBuf : CclBuffer) (sendCount : Nat)
    (recvBuf : CclBuffer) (recvCounts : Nat → Nat) (commSize rank : Nat) (scheds : MainSched) : Option MainSched :=
  if mainSched = false ∧ scheds.subscheds.length ≠ 1 then none
  else if recvCounts rank ≠ sendCount then none
  else do
    let isInplace ←
      isAllgathervInplace checkInplaceAliasing sendBuf sendCount recvBuf recvCounts rank commSize
    let scheds ← ringAllgathervCopy mainSched isInplace sendBuf sendCount recvBuf recvCounts rank scheds
    let (scheds, _) := (range (commSize - 1)).foldl
      (fun x _ => ringAllgathervStep recvBuf recvCounts commSize rank x) (scheds, rank)
    if mainSched then scheds.syncSubscheds else some scheds

/-! ## Parts of blocks -/

theorem blockThreadCount_eq (total p c : Nat) : blockThreadCount total p c = size total p c := by
  unfold blockThreadCount size
  split <;> rfl

theorem schedOffset_eq {total p : Nat} (hc : c < p) : schedOffset total p c = offset total p c := by
  rw [← sumTo_size hc]
  clear hc
  induction c with
  | zero => rfl
  | succ c ih => rw [schedOffset, ih, blockThreadCount_eq, sumTo]

section

variable (counts : Nat → Nat) (p c : Nat)

/-- Where part `c` of a block begins in the receive buffer. -/
def partOffset (b : Nat) : Nat := agvOffset counts b + offset (counts b) p c

def partSize (b : Nat) : Nat := size (counts b) p c

variable {counts p c}

theorem agvPart_apart (recvBuf : CclBuffer) {b' : Nat} (hc : c < p) (hc' : c' < p) (hne : b ≠ b' ∨ c ≠ c') :
    PieceApart (recvBuf + partOffset counts p c b, partSize counts p c b)
      (recvBuf + partOffset counts p c' b', partSize counts p c' b') := by
  refine .inr ?_
  simp only [add_offset, partOffset, partSize, agvOffset_eq_sumTo]
  by_cases hb : b = b'
  · subst hb
    rcases (hne.resolve_left (not_not_intro rfl)).lt_or_gt with h | h
    · have := ordered (counts b) h hc'
      omega
    · have := ordered (counts b) h hc
      omega
  · have h1 := offset_add_size_le (counts b) hc
    have h2 := offset_add_size_le (counts b') hc'
    rcases Nat.lt_or_gt_of_ne hb with h | h
    · have := sumTo_ordered counts h
      omega
    · have := sumTo_ordered counts h
      omega

/-- The parts of a block lie in it, and every element of it is in one of them. -/
def PartsTile (counts : Nat → Nat) (p b : Nat) : Prop :=
  (∀ c < p, agvOffset counts b ≤ partOffset counts p c b ∧
    partOffset counts p c b + partSize counts p c b ≤ agvOffset counts b + counts b) ∧
  ∀ i, agvOffset counts b ≤ i → i < agvOffset counts b + counts b →
    ∃! c, c < p ∧ partOffset counts p c b ≤ i ∧ i < partOffset counts p c b + partSize counts p c b

variable (counts) in
theorem partsTile (hp : 0 < p) (b : Nat) : PartsTile counts p b := by
  refine ⟨fun c hc => ⟨Nat.le_add_right .., ?_⟩, fun i hlo hhi => ?_⟩
  · have := offset_add_size_le (counts b) hc
    rw [partOffset, partSize]
    omega
  · obtain ⟨j, rfl⟩ := Nat.exists_eq_add_of_le hlo
    obtain ⟨c, hc, h1, h2⟩ := exists_part (counts b) hp (show j < counts b by omega)
    refine ⟨c, ⟨hc, ?_, ?_⟩, ?_⟩
    · exact Nat.add_le_add_left h1 _
    · rw [partOffset, partSize]
      omega
    · rintro c' ⟨hc', h1', h2'⟩
      rw [partOffset] at h1'
      rw [partOffset, partSize] at h2'
      -- two parts with a common element are one
      rcases lt_trichotomy c c' with h | h | h
      · have := ordered (counts b) h hc'
        omega
      · exact h.symm
      · have := ordered (counts b) h hc
        omega

end

/-- The send buffer of a rank: its block of the receive buffer, nothing, or memory apart from the receive buffer. -/
inductive AgvBufs (sendBuf recvBuf : CclBuffer) (counts : Nat → Nat) (n r : Nat) : Prop
  | inplace (h : sendBuf = recvBuf + agvOffset counts r)
  | nothing (hnull : sendBuf.src = .null) (hcount : counts r = 0)
  | outOfPlace (hnull : sendBuf.src ≠ .null) (hapart : PieceApart (sendBuf, counts r) (recvBuf, agvOffset counts n))
      (hbegin : sendBuf.src = recvBuf.src → recvBuf.offset ≤ sendBuf.offset →
        recvBuf.offset + agvOffset counts n ≤ sendBuf.offset)

/-! ## What a call is to do -/

/-- In every run, what a rank sends in a partial schedule is that schedule's part of the rank's own block, or of a block
that it receives before in the same schedule: when the send is started, the receive is done. -/
def ForwardsReceived {α : Type} (op : α → α → α) (recvBuf : CclBuffer) (counts : Nat → Nat) (n p : Nat) (tag : Nat → Nat)
    (eager : Nat × Nat → Nat → Bool) (sched : Nat → MainSched) (mem : Nat → Mem α) : Prop :=
  ∀ r < n, ∀ c < p, ∀ i buf cnt dst bar, ((sched r).sub c).entries[i]? = some ⟨.send buf cnt dst, bar⟩ →
    ∃ b < n, buf = recvBuf + partOffset counts p c b ∧ cnt = partSize counts p c b ∧
      (b = r ∨ ∃ j src bar', ((sched r).sub c).entries[j]? = some ⟨.recv buf cnt src, bar'⟩ ∧
        ∀ s, (schedsNet op n p tag eager fun r c => (sched r).sub c).Reach mem s →
          s.stageAt ((r, c), i) ≠ .idle → s.stageAt ((r, c), j) = .done)

/-- What a rank receives in a partial schedule is that schedule's part of another rank's block. -/
def ReceivesParts (recvBuf : CclBuffer) (counts : Nat → Nat) (n p : Nat) (sched : Nat → MainSched) : Prop :=
  ∀ r < n, ∀ c < p, ∀ e ∈ ((sched r).sub c).entries, ∀ buf cnt src, e.kind = .recv buf cnt src →
    ∃ b < n, b ≠ r ∧ buf = recvBuf + partOffset counts p c b ∧ cnt = partSize counts p c b

/-! ## The schedules -/

/-- What the ranks of an allgatherv pass. -/
structure AgvCall where
  sendBuf : Nat → CclBuffer
  recvBuf : CclBuffer
  counts : Nat → Nat
  n : Nat

namespace AgvCall

section

variable (A : AgvCall)

/-- The ring of the parts that partial schedule `c` of `p` has. -/
abbrev ring (p c : Nat) : GatherRing := ⟨true, true, A.recvBuf, partOffset A.counts p c, partSize A.counts p c, A.n⟩

/-- What partial schedule `c` of `p` does in step `t`. -/
def kinds (p c t : Nat) : Nat → List EntryKind := (A.ring p c).kinds t

/-- The first `m` steps of the ring of partial schedule `c`. -/
def roundsTo (p c m : Nat) : List SchedRound := (A.ring p c).rounds m

/-- The ring of partial schedule `c`. -/
def rounds (p c : Nat) : List SchedRound := A.roundsTo p c (A.n - 1)

end

variable {A : AgvCall} {r p : Nat}

theorem ring_apart (hc : c < p) : (A.ring p c).Apart := fun _ _ _ _ hne => agvPart_apart A.recvBuf hc hc (.inl hne)

theorem ringAllgathervPart_entries (hr : r < A.n) (ht : t + 1 < A.n) (hc : c < p) {sched : Sched}
    (hl : sched.entries = l) (hfence : A.kinds p c t r = [] → Fenced l) :
    (ringAllgathervPart A.recvBuf A.counts A.n r p (rotDown A.n r t) (rotDown A.n r (t + 1)) c sched).entries =
      l ++ entriesOf true (A.kinds p c t r) := by
  have hsrc : (A.n + r - 1) % A.n = rotDown A.n r 1 := by
    rw [Nat.add_comm A.n r]
    exact mod_rotDown hr (by omega)
  have hdst : (A.n + r + 1) % A.n = rotUp A.n r 1 := by
    rw [Nat.add_assoc, Nat.add_mod_left]
    exact mod_rotUp hr (by omega)
  refine Sched.addBarrier_fenced ?_ hfence
  simp only [kinds, GatherRing.kinds, if_pos hr, if_true, GatherRing.send, GatherRing.recv, GatherRing.block, true_and,
    partSize, partOffset, hsrc, hdst, blockThreadCount_eq, schedOffset_eq hc, add_add]
  by_cases h1 : size (A.counts (rotDown A.n r t)) p c = 0 <;>
    by_cases h2 : size (A.counts (rotDown A.n r (t + 1))) p c = 0 <;>
    simp [h1, h2, hl, entriesOf]

theorem ringAllgathervSteps_holds {m : Nat} (hr : r < A.n) (hm : m < A.n) {s : MainSched} {entries : Nat → List SchedEntry}
    (h : s.Holds p entries) (hfence : ∀ c < p, A.kinds p c 0 r = [] → Fenced (entries c)) :
    ∃ s', (range m).foldl (fun x _ => ringAllgathervStep A.recvBuf A.counts A.n r x) (s, r) = (s', rotDown A.n r m) ∧
      s'.syncs = s.syncs ∧ s'.Holds p (fun c => entries c ++ (A.roundsTo p c m).flatMap (· r)) ∧
      ∀ c < p, A.kinds p c m r = [] → Fenced (entries c ++ (A.roundsTo p c m).flatMap (· r)) := by
  induction m with
  | zero =>
    refine ⟨s, by rw [rotDown_zero]; rfl, rfl, ?_⟩
    simpa [roundsTo, GatherRing.rounds] using ⟨h, hfence⟩
  | succ m ih =>
    obtain ⟨s', hloop, hsyncs, hs', hfence'⟩ := ih (by omega)
    have hidx : (A.n + rotDown A.n r m - 1) % A.n = rotDown A.n r (m + 1) := by
      rw [Nat.add_comm A.n, mod_rotDown (rotDown_lt hr (by omega)) (by omega)]
      exact rotDown_rotDown_one hr (by omega)
    have hrounds : ∀ c, (A.roundsTo p c (m + 1)).flatMap (· r) =
        (A.roundsTo p c m).flatMap (· r) ++ entriesOf true (A.kinds p c m r) := fun c => GatherRing.rounds_succ m r
    rw [range_succ, foldl_append, hloop]
    refine ⟨_, congrArg (Prod.mk _) hidx, hsyncs, ?_, fun c hc _ => ?_⟩
    · show MainSched.Holds ⟨_, _⟩ _ _
      rw [hs'.1, hidx]
      refine hs'.mapIdx (fun c hc x hx => ?_) _
      rw [ringAllgathervPart_entries hr hm hc hx (hfence' c hc), hrounds, append_assoc]
    · rw [hrounds, ← append_assoc]
      exact Fenced.append_entriesOf (hfence' c hc)

/-! ## The copy, and the meetings -/

variable (A)

/-- A rank copies its block, unless it is in place or empty. -/
def Copies (r : Nat) : Prop := A.sendBuf r ≠ A.recvBuf + agvOffset A.counts r ∧ 0 < A.counts r

instance (r : Nat) : Decidable (A.Copies r) := inferInstanceAs (Decidable (_ ∧ _))

def copyKinds (r : Nat) : List EntryKind :=
  if r < A.n ∧ A.Copies r then [.copy (A.sendBuf r) (A.recvBuf + agvOffset A.counts r) (A.counts r)] else []

def copyMeeting (mainSched : Bool) (r : Nat) : Option Nat :=
  if mainSched ∧ r < A.n ∧ A.Copies r then some 0 else none

/-- The meeting at the end, which is the one after the copy when there is nothing between. -/
def lastMeeting (mainSched : Bool) (r : Nat) : Option Nat :=
  if mainSched ∧ r < A.n then
    if A.Copies r then if 1 < A.n then some 1 else none else some 0
  else none

/-- The entries before the ring: the copy and the meeting after it. -/
abbrev front (mainSched : Bool) (r c : Nat) : List SchedEntry :=
  (if c = 0 then entriesOf false (A.copyKinds r) else []) ++ (A.copyMeeting mainSched r).toList.map (⟨.sync ·, true⟩)

/-- The copy, the meeting after it, the rings beside each other, and the meeting at the end. -/
def tasks (mainSched : Bool) (p : Nat) : List TaskRound :=
  .column 0 (.ofKinds false A.copyKinds) :: .sync p (A.copyMeeting mainSched) ::
    (columns p (A.rounds p) ++ [.sync p (A.lastMeeting mainSched)])

variable {A}

theorem isInplace_of_bufs (h : AgvBufs (A.sendBuf r) A.recvBuf A.counts A.n r) (check : Bool) :
    ∃ b, isAllgathervInplace check (A.sendBuf r) (A.counts r) A.recvBuf A.counts r A.n = some b ∧
      (b = false ∧ 0 < A.counts r ↔ A.Copies r) := by
  cases h with
  | inplace h =>
    refine ⟨true, ?_, by simp [Copies, h]⟩
    rw [h]
    exact isAllgathervInplace_block ..
  | nothing hnull hcount =>
    refine ⟨true, ?_, by simp [Copies, hcount]⟩
    simp [isAllgathervInplace, hnull]
  | outOfPlace hnull hapart hbegin =>
    refine ⟨decide (A.sendBuf r = A.recvBuf + agvOffset A.counts r), ?_, by simp [Copies]⟩
    have halias : ¬ ((A.sendBuf r).src = A.recvBuf.src ∧ A.recvBuf.offset ≤ (A.sendBuf r).offset ∧
        (A.sendBuf r).offset < A.recvBuf.offset + agvOffset A.counts A.n) := by
      intro h
      have := hbegin h.1 h.2.1
      omega
    simp only [isAllgathervInplace, ne_eq, not_true, if_false, halias, false_and, hnull, false_or]

theorem mem_rounds (h : e ∈ (A.rounds p c).flatMap (· r)) :
    ∃ t, t + 1 < A.n ∧ e.kind ∈ A.kinds p c t r := by
  obtain ⟨R, hR, he⟩ := mem_flatMap.mp h
  obtain ⟨t, ht, rfl⟩ := mem_map.mp hR
  have ht := mem_range.mp ht
  exact ⟨t, by omega, mem_entriesOf he⟩

theorem kinds_not_sync (h : k ∈ A.kinds p c t r) (o : Nat) : k ≠ .sync o := by
  rcases (GatherRing.mem_kinds.mp h).2 with h | h
  · rw [(GatherRing.mem_send.mp h).2]
    nofun
  · rw [(GatherRing.mem_recv.mp h).2]
    nofun

theorem kinds_first (hr : r < A.n) (hcount : 0 < A.counts r) :
    A.kinds p (p - 1) 0 r ≠ [] := by
  refine ne_nil_of_mem (GatherRing.mem_kinds.mpr ⟨hr, .inl (GatherRing.mem_send.mpr ⟨?_, rfl⟩)⟩)
  have := size_last_pos (k := p) hcount
  show ¬ (true ∧ size (A.counts (rotDown A.n r 0)) p (p - 1) = 0)
  rw [rotDown_zero]
  omega

theorem rounds_last (hne : (A.rounds p c).flatMap (· r) ≠ []) :
    ∀ e ∈ (l ++ (A.rounds p c).flatMap (· r)).getLast?, ∀ k, e.kind ≠ .sync k := by
  intro e he k
  rw [getLast?_append_of_ne_nil _ hne] at he
  obtain ⟨t, -, hk⟩ := mem_rounds (mem_of_getLast? he)
  exact kinds_not_sync hk k

theorem tasks_entries (mainSched : Bool) (hc : c < p) :
    (A.tasks mainSched p).flatMap (·.entries r c) = A.front mainSched r c ++ (A.rounds p c).flatMap (· r) ++
      (A.lastMeeting mainSched r).toList.map (⟨.sync ·, true⟩) := by
  have hsync : ∀ obj : Nat → Option Nat,
      (sync p obj).entries r c = (obj r).toList.map (⟨.sync ·, true⟩) := fun _ => if_pos hc
  rw [tasks, flatMap_cons, flatMap_cons, flatMap_append, columns_entries, if_pos hc,
    flatMap_singleton, hsync, hsync, append_assoc, append_assoc]
  rfl

theorem ringAllgathervCopy_holds (hmain : mainSched = true ∨ p = 1) (hp : 0 < p) {inplace : Bool}
    (hr : r < A.n) (hcopies : inplace = false ∧ 0 < A.counts r ↔ A.Copies r) :
    ∃ s, ringAllgathervCopy mainSched inplace (A.sendBuf r) (A.counts r) A.recvBuf A.counts r (.new p) = some s ∧
      s.syncs = (A.copyMeeting mainSched r).toList.length ∧
      s.Holds p (A.front mainSched r) ∧ ∀ c < p, A.kinds p c 0 r = [] → Fenced (A.front mainSched r c) := by
  unfold ringAllgathervCopy front
  by_cases hcopy : A.Copies r
  · have hkinds : A.copyKinds r =
        [.copy (A.sendBuf r) (A.recvBuf + agvOffset A.counts r) (A.counts r)] := if_pos ⟨hr, hcopy⟩
    have hfront := (MainSched.new_holds p).modifyHead (fun x => Sched.create_entries x
      (.copy (A.sendBuf r) (A.recvBuf + agvOffset A.counts r) (A.counts r))) (MainSched.new p).syncs
    simp only [hcopies.mpr hcopy, and_self, if_true, hkinds, entriesOf_singleton]
    cases mainSched with
    | true =>
      have hmeet : A.copyMeeting true r = some 0 := if_pos ⟨rfl, hr, hcopy⟩
      obtain ⟨s, hs, hsyncs, hholds⟩ := hfront.syncSubscheds hp fun e he k => by cases he; nofun
      simp only [hmeet, if_true, Option.toList_some, map_singleton]
      refine ⟨s, hs, hsyncs, hholds, fun c _ _ e he => ?_⟩
      rw [getLast?_concat] at he
      rw [← Option.some.inj he]
    | false =>
      have hmeet : A.copyMeeting false r = none := if_neg fun h => Bool.noConfusion h.1
      obtain rfl : p = 1 := hmain.resolve_left Bool.noConfusion
      simp only [hmeet, Bool.false_eq_true, if_false, Option.toList_none, map_nil, append_nil]
      refine ⟨_, rfl, rfl, hfront, fun c hc hnil => absurd hnil ?_⟩
      obtain rfl : c = 0 := by omega
      exact kinds_first hr hcopy.2
  · have hmeet : A.copyMeeting mainSched r = none := if_neg fun h => hcopy h.2.2
    have hkinds : A.copyKinds r = [] := if_neg fun h => hcopy h.2
    rw [if_neg (mt hcopies.mp hcopy)]
    simp only [hmeet, hkinds, entriesOf_nil, ite_self, Option.toList_none, map_nil, append_nil]
    exact ⟨_, rfl, rfl, MainSched.new_holds p, fun c _ _ e he => by cases he⟩

/-- The meeting at the end is added behind the rings. -/
theorem lastMeeting_holds (hp : 0 < p) (hr : r < A.n) {s : MainSched}
    (hsyncs : s.syncs = (A.copyMeeting mainSched r).toList.length)
    (h : s.Holds p fun c => A.front mainSched r c ++ (A.rounds p c).flatMap (· r)) :
    ∃ s', (if mainSched then s.syncSubscheds else some s) = some s' ∧
      s'.Holds p fun c => (A.tasks mainSched p).flatMap (·.entries r c) := by
  suffices hlast : ∃ s' l, (if mainSched then s.syncSubscheds else some s) = some s' ∧
      l = (A.lastMeeting mainSched r).toList.map (⟨.sync ·, true⟩) ∧
      s'.Holds p (fun c => (A.front mainSched r c ++ (A.rounds p c).flatMap (· r)) ++ l) by
    obtain ⟨s', l, hs, rfl, hholds⟩ := hlast
    exact ⟨s', hs, hholds.1, fun c hc => (hholds.2 c hc).trans (tasks_entries mainSched hc).symm⟩
  cases mainSched with
  | false =>
    refine ⟨s, [], if_neg Bool.noConfusion, ?_, ?_⟩
    · rw [lastMeeting, if_neg fun h => Bool.noConfusion h.1]
      rfl
    · simpa only [append_nil] using h
  | true =>
    rw [if_pos rfl, lastMeeting, if_pos ⟨rfl, hr⟩]
    by_cases hcopy : A.Copies r
    · have hmeet : A.copyMeeting true r = some 0 := if_pos ⟨rfl, hr, hcopy⟩
      rw [if_pos hcopy]
      rcases lt_or_ge 1 A.n with hn | hn
      · have hne : (A.rounds p (p - 1)).flatMap (· r) ≠ [] := by
          intro hnil
          have hfirst := flatMap_eq_nil_iff.mp hnil _ (mem_map.mpr ⟨0, mem_range.mpr (by omega), rfl⟩)
          exact kinds_first hr hcopy.2 ((map_kind_entriesOf true _).symm.trans (congrArg _ hfirst))
        obtain ⟨s', hs, -, hholds⟩ := h.syncSubscheds (show p - 1 < p by omega) (rounds_last hne)
        refine ⟨s', _, hs, ?_, hholds⟩
        rw [if_pos hn, hsyncs, hmeet]
        rfl
      · have hnil : ∀ c, (A.rounds p c).flatMap (· r) = [] := by
          intro c
          rw [rounds, roundsTo, GatherRing.rounds, show A.n - 1 = 0 by omega]
          rfl
        refine ⟨s, [], h.syncSubscheds_again hp (k := 0) fun c _ => ?_, ?_, ?_⟩
        · rw [hnil, front, hmeet, append_nil, Option.toList_some, map_singleton, getLast?_concat]
        · rw [if_neg (by omega)]
          rfl
        · simpa only [append_nil] using h
    · have hmeet : A.copyMeeting true r = none := if_neg fun h => hcopy h.2.2
      have hkinds : A.copyKinds r = [] := if_neg fun h => hcopy h.2
      obtain ⟨s', hs, -, hholds⟩ := h.syncSubscheds hp fun e he k => by
        by_cases hne : (A.rounds p 0).flatMap (· r) = []
        · rw [hne, front, hmeet, hkinds] at he
          cases he
        · exact rounds_last hne e he k
      refine ⟨s', _, hs, ?_, hholds⟩
      rw [if_neg hcopy, hsyncs, hmeet]
      rfl

variable (A) in
/-- **The schedules of the ring allgatherv.** -/
theorem cclCollBuildRingAllgatherv_holds (hmain : mainSched = true ∨ p = 1) (hp : 0 < p) (check : Bool)
    (hr : r < A.n) (hbufs : AgvBufs (A.sendBuf r) A.recvBuf A.counts A.n r) :
    ∃ s, cclCollBuildRingAllgatherv mainSched check (A.sendBuf r) (A.counts r) A.recvBuf A.counts A.n r (.new p) = some s ∧
      s.Holds p fun c => (A.tasks mainSched p).flatMap (·.entries r c) := by
  obtain ⟨inplace, hinplace, hcopies⟩ := isInplace_of_bufs hbufs check
  obtain ⟨s₁, hs₁, hsyncs₁, h₁, hfence⟩ := ringAllgathervCopy_holds hmain hp hr hcopies
  obtain ⟨s₂, hs₂, hsyncs₂, h₂, -⟩ := ringAllgathervSteps_holds hr (show A.n - 1 < A.n by omega) h₁ hfence
  have hguard : ¬ (mainSched = false ∧ (MainSched.new p).subscheds.length ≠ 1) := by
    rw [(MainSched.new_holds p).1]
    rintro ⟨h1, h2⟩
    exact h2 (hmain.resolve_left (by rw [h1]; exact Bool.noConfusion))
  have hbuild : cclCollBuildRingAllgatherv mainSched check (A.sendBuf r) (A.counts r) A.recvBuf A.counts A.n r (.new p) =
      if mainSched then s₂.syncSubscheds else some s₂ := by
    unfold cclCollBuildRingAllgatherv
    rw [if_neg hguard, if_neg (not_not_intro rfl), hinplace]
    simp only [Option.bind_eq_bind, Option.bind_some, hs₁, hs₂]
  rw [hbuild]
  exact lastMeeting_holds hp hr (hsyncs₂.trans hsyncs₁) h₂

/-! ## The schedules run -/

theorem copyKinds_local (r : Nat) : ∀ k ∈ A.copyKinds r, k.isLocal = true := by
  intro k hk
  unfold copyKinds at hk
  obtain ⟨-, hk⟩ := mem_ite_nil_right.mp hk
  rw [mem_singleton.mp hk]
  rfl

theorem copyKinds_good : KindsGood (A.copyKinds) A.n :=
  kindsGood_ite (fun _ hr => hr.1) fun _ => rfl

theorem mem_columns_rounds (h : P ∈ columns p (A.rounds p)) :
    ∃ c < p, ∃ t, t + 1 < A.n ∧ P = .column c (.ofKinds true (A.kinds p c t)) := by
  obtain ⟨c, hc, R, hR, rfl⟩ := mem_columns.mp h
  obtain ⟨t, ht, rfl⟩ := mem_map.mp hR
  have ht := mem_range.mp ht
  exact ⟨c, hc, t, by omega, rfl⟩

variable (A) in
theorem tasks_good (hp : 0 < p) (mainSched : Bool) :
    ∀ P ∈ A.tasks mainSched p, P.IsGood A.n p := by
  intro P hP
  simp only [tasks, mem_cons, mem_append, not_mem_nil, or_false] at hP
  rcases hP with rfl | rfl | hP | rfl
  · exact ⟨hp, SchedRound.IsGood.isRoomy (copyKinds_good.isGood false)⟩
  · refine ⟨Nat.le_refl p, fun r hr => if_neg fun h => ?_⟩
    omega
  · obtain ⟨c, hc, t, ht, rfl⟩ := mem_columns_rounds hP
    exact ⟨hc, SchedRound.IsGood.isRoomy ((GatherRing.kinds_good (ring_apart hc) ht).isGood true)⟩
  · refine ⟨Nat.le_refl p, fun r hr => if_neg fun h => ?_⟩
    omega

theorem tasks_closed (mainSched : Bool) :
    ∀ P ∈ A.tasks mainSched p, ∀ r c, ClosedEntries (P.entries r c) := by
  intro P hP r c
  simp only [tasks, mem_cons, mem_append, not_mem_nil, or_false] at hP
  rcases hP with rfl | rfl | hP | rfl
  · exact closed_column (SchedRound.closed_of_local copyKinds_local false) 0 r c
  · exact closed_sync ..
  · obtain ⟨c', hc, t, ht, rfl⟩ := mem_columns_rounds hP
    exact closed_column (SchedRound.closed_ofKinds _) c' r c
  · exact closed_sync ..

theorem tasks_meetings (mainSched : Bool) :
    (A.tasks mainSched p).Pairwise fun P P' =>
      ∀ r k, P.Meets r k → ¬ P'.Meets r k := by
  have hcolumn : ∀ {c R r k}, ¬ (column c R).Meets r k := by
    rintro c R r k ⟨cols, obj, h, -⟩
    cases h
  have hcolumns : ∀ P ∈ columns p (A.rounds p), ∀ r k, ¬ P.Meets r k := by
    intro P hP r k
    obtain ⟨c, -, t, -, rfl⟩ := mem_columns_rounds hP
    exact hcolumn
  refine .cons (fun P _ r k h => absurd h hcolumn) (.cons (fun P hP r k h => ?_) ?_)
  · rcases mem_append.mp hP with hP | hP
    · exact hcolumns P hP r k
    · rw [mem_singleton.mp hP]
      obtain ⟨cols, obj, heq, hk⟩ := h
      obtain ⟨-, rfl⟩ := sync.inj heq
      rintro ⟨cols', obj', heq', hk'⟩
      obtain ⟨-, rfl⟩ := sync.inj heq'
      unfold copyMeeting at hk
      unfold lastMeeting at hk'
      split at hk
      next hc =>
        rw [if_pos ⟨hc.1, hc.2.1⟩, if_pos hc.2.2] at hk'
        split at hk'
        · rw [← Option.some.inj hk] at hk'
          cases Option.some.inj hk'
        · cases hk'
      next => cases hk
  · refine pairwise_append.mpr ⟨?_, pairwise_singleton .., fun P hP P' _ r k h => absurd h (hcolumns P hP r k)⟩
    exact pairwise_of_forall_mem_list fun P hP P' _ r k h => absurd h (hcolumns P hP r k)

theorem kinds_apart {t' : Nat} (hc : c < p) (hc' : c' < p) (hne : c ≠ c') {k' : EntryKind}
    (hk : k ∈ A.kinds p c t r)
    (hk' : k' ∈ A.kinds p c' t' r) : k.Apart k' := by
  have hpiece : ∀ {c k t}, k ∈ A.kinds p c t r → ∀ q ∈ k.reads ++ k.writes,
      ∃ b, q = (A.recvBuf + partOffset A.counts p c b, partSize A.counts p c b) := by
    intro c k t hk q hq
    rcases (GatherRing.mem_kinds.mp hk).2 with h | h
    · rw [(GatherRing.mem_send.mp h).2] at hq
      exact ⟨_, mem_singleton.mp hq⟩
    · rw [(GatherRing.mem_recv.mp h).2] at hq
      exact ⟨_, mem_singleton.mp hq⟩
  refine ⟨fun q hq q' hq' => ?_, fun q hq q' hq' => ?_⟩
  · obtain ⟨b, rfl⟩ := hpiece hk q (mem_append_right _ hq)
    obtain ⟨b', rfl⟩ := hpiece hk' q' hq'
    exact agvPart_apart A.recvBuf hc hc' (.inr hne)
  · obtain ⟨b, rfl⟩ := hpiece hk q (mem_append_left _ hq)
    obtain ⟨b', rfl⟩ := hpiece hk' q' (mem_append_right _ hq')
    exact agvPart_apart A.recvBuf hc hc' (.inr hne)

theorem apart_of_sync {cols : Nat} {obj : Nat → Option Nat} (hP : P = .sync cols obj)
    (he : e ∈ P.entries r c) (k : EntryKind) : e.kind.Apart k := by
  subst hP
  obtain ⟨-, o, -, rfl⟩ := mem_sync.mp he
  exact ⟨forall_mem_nil _, forall_mem_nil _⟩

theorem tasks_cross (hmain : mainSched = true ∨ p = 1) (hp : 0 < p) {X Y Z : List TaskRound}
    {P' : TaskRound} (hPs : A.tasks mainSched p = X ++ P :: (Y ++ P' :: Z)) (hne : c ≠ c') {e' : SchedEntry}
    (he : e ∈ P.entries r c) (he' : e' ∈ P'.entries r c') :
    e.kind.Apart e'.kind ∨ ∃ cols obj k, .sync cols obj ∈ Y ∧ c < cols ∧ c' < cols ∧ obj r = some k := by
  have hlt : ∀ {P : TaskRound} {r c e}, P ∈ A.tasks mainSched p →
      e ∈ P.entries r c → c < p := by
    intro P r c e hP he
    by_contra hc
    rw [(tasks_good A hp mainSched P hP).entries_eq_nil fun h => hc h.2] at he
    cases he
  have hc : c < p := hlt (hPs ▸ mem_append_right _ mem_cons_self) he
  have hc' : c' < p :=
    hlt (hPs ▸ mem_append_right _ (mem_cons_of_mem _ (mem_append_right _ mem_cons_self))) he'
  cases X with
  | nil =>
    obtain ⟨rfl, hrest⟩ := cons.inj hPs
    cases Y with
    | nil =>
      obtain ⟨rfl, -⟩ := cons.inj hrest
      exact .inl (apart_of_sync rfl he' _).symm
    | cons P₁ Y =>
      obtain ⟨rfl, -⟩ := cons.inj hrest
      refine .inr ⟨p, _, 0, mem_cons_self, hc, hc', ?_⟩
      obtain ⟨h, -⟩ := mem_ite_nil_right.mp (mem_entriesOf (mem_column.mp he).2)
      exact if_pos ⟨hmain.resolve_right (by omega), h⟩
  | cons P₀ X =>
    -- behind the copy there are meetings and rings
    rw [cons_append] at hPs
    obtain ⟨-, hrest⟩ := cons.inj hPs
    have hcase : ∀ Q ∈ X ++ P :: (Y ++ P' :: Z), (∃ cols obj, Q = .sync cols obj) ∨
        ∃ d < p, ∃ t, Q = .column d (.ofKinds true (A.kinds p d t)) := by
      intro Q hQ
      rw [← hrest] at hQ
      simp only [mem_cons, mem_append, not_mem_nil, or_false] at hQ
      rcases hQ with rfl | hQ | rfl
      · exact .inl ⟨_, _, rfl⟩
      · obtain ⟨d, hd, t, -, rfl⟩ := mem_columns_rounds hQ
        exact .inr ⟨d, hd, t, rfl⟩
      · exact .inl ⟨_, _, rfl⟩
    left
    rcases hcase P (by simp) with ⟨cols, obj, hP⟩ | ⟨d, hd, t, rfl⟩
    · exact apart_of_sync hP he _
    · rcases hcase P' (by simp) with ⟨cols, obj, hP'⟩ | ⟨d', hd', t', rfl⟩
      · exact (apart_of_sync hP' he' _).symm
      · obtain ⟨rfl, he⟩ := mem_column.mp he
        obtain ⟨rfl, he'⟩ := mem_column.mp he'
        exact kinds_apart hd hd' hne (mem_entriesOf he) (mem_entriesOf he')

/-! ## What the schedules leave -/

variable {α : Type} (op : α → α → α)

theorem columns_exec {q : Nat} (hq : q ≤ p) (σ : Nat → Mem α) {j : Nat} (hr : r < A.n) (hb : b < A.n)
    (hc : c < p) (hj : j < partSize A.counts p c b) :
    execTasks op (columns q (A.rounds p)) σ r (A.recvBuf.at (partOffset A.counts p c b + j)) =
      σ (if c < q then b else r) (A.recvBuf.at (partOffset A.counts p c b + j)) := by
  induction q generalizing r with
  | zero => rfl
  | succ q ih =>
    rw [columns_succ, execTasks_append, execTasks_column]
    by_cases hcq : c = q
    · subst hcq
      rw [rounds, roundsTo, GatherRing.run_all op (ring_apart hc) _ hr hb hj, ih (by omega) hb,
        if_neg (Nat.lt_irrefl c), if_pos (Nat.lt_succ_self c)]
    · have hnot : ∀ b' < A.n, A.recvBuf.at (partOffset A.counts p c b + j) ∉
          region (A.recvBuf + partOffset A.counts p q b') (partSize A.counts p q b') := by
        intro b' _
        rw [← add_at]
        exact Set.disjoint_left.mp (agvPart_apart A.recvBuf hc hq (.inr hcq)).disjoint (at_mem_region.mpr hj)
      rw [rounds, roundsTo, GatherRing.run_frame op (ring_apart hq) _ (show A.n - 1 < A.n by omega) hr hnot, ih (by omega) hr]
      congr 1
      split <;> split <;> omega

variable (A) in
theorem copy_exec (σ : Nat → Mem α) (hb : b < A.n) (hi : i < A.counts b) :
    SchedRound.exec op (.ofKinds false (A.copyKinds)) σ b
      (A.recvBuf.at (agvOffset A.counts b + i)) = σ b ((A.sendBuf b).at i) := by
  by_cases hcopy : A.Copies b
  · rw [exec_copy op false σ (if_pos ⟨hb, hcopy⟩), ← add_at, compCopy_at hi]
  · have hin : A.sendBuf b = A.recvBuf + agvOffset A.counts b := by
      by_contra h
      exact hcopy ⟨h, Nat.zero_lt_of_lt hi⟩
    rw [exec_idle op false σ (if_neg fun h => hcopy h.2), hin, add_at]

/-- **What the rounds leave**: every rank has every block. -/
theorem tasks_exec (hp : 0 < p) (mainSched : Bool) (σ : Nat → Mem α) (hr : r < A.n) (hb : b < A.n)
    (hi : i < A.counts b) :
    execTasks op (A.tasks mainSched p) σ r (A.recvBuf.at (agvOffset A.counts b + i)) =
      σ b ((A.sendBuf b).at i) := by
  obtain ⟨c, hc, hlo, hhi⟩ := exists_part (A.counts b) hp hi
  obtain ⟨j, rfl⟩ := Nat.exists_eq_add_of_le hlo
  have hat : agvOffset A.counts b + (offset (A.counts b) p c + j) = partOffset A.counts p c b + j := by
    rw [partOffset, Nat.add_assoc]
  have hcopy := copy_exec A op σ hb hi
  rw [hat] at hcopy ⊢
  show execTasks op (columns p _ ++ [_]) _ r _ = _
  rw [execTasks_append]
  show execTasks op (columns p _) _ r _ = _
  rw [columns_exec op (Nat.le_refl p) _ hr hb hc (show j < size (A.counts b) p c by omega), if_pos hc]
  exact hcopy

section

variable (hsched : ∀ r < A.n, (sched r).Holds p fun c =>
  (A.tasks mainSched p).flatMap (·.entries r c))

include hsched

theorem rounds_split (hr : r < A.n) (hc : c < p) :
    ∃ X Y, ((sched r).sub c).entries = X ++ ((A.rounds p c).flatMap (· r) ++ Y) ∧
      (∀ e ∈ X, (∀ b len d, e.kind ≠ .send b len d) ∧ ∀ b len d, e.kind ≠ .recv b len d) ∧
      ∀ e ∈ Y, (∀ b len d, e.kind ≠ .send b len d) ∧ ∀ b len d, e.kind ≠ .recv b len d := by
  have hmeet : ∀ (o : Option Nat), ∀ e ∈ o.toList.map (⟨.sync ·, true⟩ : Nat → SchedEntry),
      (∀ b len d, e.kind ≠ .send b len d) ∧ ∀ b len d, e.kind ≠ .recv b len d := by
    intro o e he
    obtain ⟨k, -, rfl⟩ := mem_map.mp he
    exact ⟨nofun, nofun⟩
  refine ⟨_, _, ((hsched r hr).2 c hc).trans ((tasks_entries mainSched hc).trans
    (append_assoc ..)), fun e he => ?_, hmeet _⟩
  rcases mem_append.mp he with he | he
  · split at he
    · have hloc := copyKinds_local r _ (mem_entriesOf he)
      refine ⟨fun b len d h => ?_, fun b len d h => ?_⟩ <;> rw [h] at hloc <;> cases hloc
    · cases he
  · exact hmeet _ e he

/-- **Parts are forwarded after they were received.** -/
theorem rounds_forwards (tag : Nat → Nat) (eager : Nat × Nat → Nat → Bool) (mem : Nat → Mem α) :
    ForwardsReceived op A.recvBuf A.counts A.n p tag eager sched mem := by
  intro r hr c hc i buf cnt dst bar he
  obtain ⟨X, Y, hentries, hX, hY⟩ := rounds_split hsched hr hc
  have hsend : ∀ {l : List SchedEntry} {i : Nat}, (∀ e ∈ l, ∀ b len d, e.kind ≠ .send b len d) →
      l[i]? ≠ some ⟨.send buf cnt dst, bar⟩ := fun h hi => h _ (mem_of_getElem? hi) buf cnt dst rfl
  have hi : X.length ≤ i := by
    by_contra hlt
    rw [hentries, getElem?_append_left (by omega)] at he
    exact hsend (fun e h => (hX e h).1) he
  obtain ⟨i, rfl⟩ := Nat.exists_eq_add_of_le hi
  have hmid : ∀ {i e}, ((A.rounds p c).flatMap (· r))[i]? = some e →
      ((sched r).sub c).entries[X.length + i]? = some e := by
    intro i e h
    have hlt := lt_of_get h
    rw [hentries, getElem?_append_right (Nat.le_add_right ..), Nat.add_sub_cancel_left,
      getElem?_append_left hlt, h]
  rw [hentries, getElem?_append_right hi, Nat.add_sub_cancel_left] at he
  have hi : i < ((A.rounds p c).flatMap (· r)).length := by
    by_contra hge
    rw [getElem?_append_right (by omega)] at he
    exact hsend (fun e h => (hY e h).1) he
  rw [getElem?_append_left hi] at he
  obtain ⟨-, t, ht, hbuf, hcnt, -, hfirst⟩ := GatherRing.forward (show A.n - 1 < A.n by omega) he rfl
  refine ⟨rotDown A.n r t, rotDown_lt hr (by omega), hbuf, hcnt, hfirst.imp ?_ ?_⟩
  · rintro rfl
    exact rotDown_zero A.n r
  · rintro ⟨j, k, e', e'', hjk, hki, hj, hrecv, hk, hbar⟩
    obtain ⟨kind, bar'⟩ := e'
    obtain rfl : kind = _ := hrecv
    refine ⟨X.length + j, rotDown A.n r 1, bar', hmid hj, fun s hs hlive => ?_⟩
    refine hs.dep (.barrier (b := X.length + k) (by omega) (by omega) ?_) hlive
    show (((if r < A.n ∧ c < p then _ else _) : List _)[X.length + k]?).any _ = true
    rw [if_pos ⟨hr, hc⟩, getElem?_map, hmid hk]
    exact hbar

theorem rounds_receives :
    ReceivesParts A.recvBuf A.counts A.n p sched := by
  intro r hr c hc e he buf cnt src hkind
  obtain ⟨X, Y, hentries, hX, hY⟩ := rounds_split hsched hr hc
  rw [hentries] at he
  rcases mem_append.mp he with he | he
  · exact absurd hkind ((hX e he).2 buf cnt src)
  · rcases mem_append.mp he with he | he
    · obtain ⟨t, ht, hk⟩ := mem_rounds he
      rcases (GatherRing.mem_kinds.mp hk).2 with h | h
      · rw [(GatherRing.mem_send.mp h).2] at hkind
        cases hkind
      · rw [(GatherRing.mem_recv.mp h).2] at hkind
        obtain ⟨rfl, rfl, -⟩ := EntryKind.recv.inj hkind
        exact ⟨_, rotDown_lt hr ht, rotDown_ne (Nat.succ_pos t) ht, rfl, rfl⟩
    · exact absurd hkind ((hY e he).2 buf cnt src)

end

end AgvCall

variable {sendBuf : Nat → CclBuffer} {recvBuf : CclBuffer} {counts : Nat → Nat} {n p : Nat} {α : Type} (op : α → α → α)

/-- **Ring allgatherv.** Every rank ends with all blocks one behind the other, for any blocks and any number of partial
schedules, whichever ranks are in place; parts are forwarded after they were received, and the parts of a block are that
block. -/
theorem ringAllgatherv_correct (hp : 0 < p) {mainSched : Bool} (hmain : mainSched = true ∨ p = 1) (check : Bool)
    (hbufs : ∀ r < n, AgvBufs (sendBuf r) recvBuf counts n r) (tag : Nat → Nat)
    (htag : ∀ c < p, ∀ c' < p, tag c = tag c' → c = c') (eager : Nat × Nat → Nat → Bool) (mem : Nat → Mem α) :
    ∃ sched : Nat → MainSched,
      (∀ r < n, cclCollBuildRingAllgatherv mainSched check (sendBuf r) (counts r) recvBuf counts n r (.new p) =
        some (sched r)) ∧
      ((schedsNet op n p tag eager fun r c => (sched r).sub c).Completes mem fun s =>
        ∀ r < n, load recvBuf (agvOffset counts n) (s.mem r) =
          (range n).flatMap fun b => load (sendBuf b) (counts b) (mem b)) ∧
      ForwardsReceived op recvBuf counts n p tag eager sched mem ∧ ReceivesParts recvBuf counts n p sched ∧
      ∀ b < n, PartsTile counts p b := by
  let A : AgvCall := ⟨sendBuf, recvBuf, counts, n⟩
  have hbuild := fun r (hr : r < n) => A.cclCollBuildRingAllgatherv_holds hmain hp check hr (hbufs r hr)
  choose! sched hsched using hbuild
  have hholds := fun r hr => (hsched r hr).2
  refine ⟨sched, fun r hr => (hsched r hr).1, ?_, AgvCall.rounds_forwards (A := A) op hholds tag eager mem,
    AgvCall.rounds_receives (A := A) hholds, fun b _ => partsTile counts hp b⟩
  have hgood := A.tasks_good hp mainSched
  refine (completes_of_meetings hgood (fun r hr c hc => (hholds r hr).2 c hc) op eager htag mem ?_
    (AgvCall.tasks_meetings mainSched)
    (raceFree_of_closed_tasks hgood op htag (AgvCall.tasks_closed mainSched)) ?_).imp ?_
  · intro P hP c R heq
    subst heq
    simp [AgvCall.tasks, mem_columns] at hP
  · intro A P B P' C hPs r c c' hne e he e' he'
    exact AgvCall.tasks_cross hmain hp hPs hne he he'
  · intro s hs r hr
    rw [load_agvOffset, hs r]
    refine flatMap_congr fun b hb => ?_
    have hb := mem_range.mp hb
    refine map_congr_left fun i hi => ?_
    rw [add_at, AgvCall.tasks_exec (A := A) op hp mainSched mem hr hb (mem_range.mp hi)]

/-- Three ranks with blocks of three, no and two elements, the last of them in place, and two partial schedules. -/
theorem ringAllgatherv_three : ∃ sched : Nat → MainSched,
      (∀ r < 3, cclCollBuildRingAllgatherv true true (if r < 2 then ⟨.user 0, 0⟩ else ⟨.user 1, 3⟩) ([3, 0, 2].getD r 0)
        ⟨.user 1, 0⟩ ([3, 0, 2].getD · 0) 3 r (.new 2) = some (sched r)) ∧
      ((schedsNet (· + ·) 3 2 id (fun _ _ => false) fun r c => (sched r).sub c).Completes (fun q _ => q + 1) fun s =>
        ∀ r < 3, load ⟨.user 1, 0⟩ 5 (s.mem r) = [1, 1, 1, 3, 3]) ∧ ∀ b < 3, PartsTile ([3, 0, 2].getD · 0) 2 b := by
  have hbufs : ∀ r < 3, AgvBufs (if r < 2 then ⟨.user 0, 0⟩ else ⟨.user 1, 3⟩) ⟨.user 1, 0⟩ ([3, 0, 2].getD · 0) 3 r := by
    intro r hr
    rcases lt_or_ge r 2 with h | h
    · rw [if_pos h]
      exact .outOfPlace nofun (.inl nofun) nofun
    · obtain rfl : r = 2 := by omega
      exact .inplace rfl
  obtain ⟨sched, hsched, hrun, -, -, htile⟩ := ringAllgatherv_correct (α := Nat) (· + ·) (p := 2) (by decide)
    (.inl (rfl : true = true)) true hbufs id (fun _ _ _ _ h => h) (fun _ _ => false) fun q _ => q + 1
  exact ⟨sched, hsched, hrun, htile⟩

end OneCcl
