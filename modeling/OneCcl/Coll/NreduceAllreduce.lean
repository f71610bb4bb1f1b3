import Mathlib.Tactic.Ring
import OneCcl.Coll.CopyIn
import OneCcl.Coll.NaiveAllgatherv
import OneCcl.Comm.Comm

/-!
# Nreduce allreduce

`ccl_coll_build_nreduce_allreduce`. The data is cut into segments, and each segment into one part for every rank.
For a segment, every rank sends everybody their part and reduces what it gets for its own part (the
reduce-scatter), then sends its result to everybody (the allgather). What it receives is put into a temporary
buffer that all segments share: in the first phase a slot of the length of its own part for every sender; in the
second, with buffering, the places the parts have in the segment. With buffering the result is kept in the rank's
own slot until the segment is done, without it in `recv_buf`.
-/

namespace OneCcl

open Async List Reduction Parts Sched

variable {count dtypeSize r idx : Nat} {swap : Nat → Nat → Option Swap}

/-! ## The builder -/

/-- `ccl_get_segment_sizes`: `none` when the sum is not what it should be. -/
def cclGetSegmentSizes (dtypeSize elemCount requestedSegSize : Nat) : Option (List Nat) :=
  if dtypeSize * elemCount = 0 then some []
  else if requestedSegSize ≤ dtypeSize then some (replicate elemCount 1)
  else
    let segSize := (requestedSegSize + dtypeSize - 1) / dtypeSize
    let totalSegCount := max ((elemCount + segSize - 1) / segSize) 1
    let regularSegSize := elemCount / totalSegCount
    let largeSegSize := regularSegSize + if elemCount % totalSegCount ≠ 0 then 1 else 0
    let regularSegCount := totalSegCount * largeSegSize - elemCount
    let segSizes := replicate regularSegCount regularSegSize ++
      replicate (totalSegCount - regularSegCount) largeSegSize
    if segSizes.sum = elemCount then some segSizes else none

/-- The settings the builder reads; a segment size that is not specified is 2 MiB. -/
structure NreduceEnv where
  allreduceNreduceBuffering : Bool
  allreduceNreduceSegmentSize : Option Nat
  checkInplaceAliasing : Bool

/-- The body of the loop of the reduce-scatter. -/
def nreduceScatterStep (sendBuf tmpBuf reduceBuf : CclBuffer) (segSize commSize rank : Nat) (sched : Sched) (idx : Nat) :
    Option Sched :=
  let elemCount := size segSize commSize rank
  let dst := (rank + commSize - idx) % commSize
  let src := (rank + idx) % commSize
  (sched.create (.send (sendBuf + offset segSize commSize dst) (size segSize commSize dst) dst)).createRecvReduce
    reduceBuf elemCount src (tmpBuf + elemCount * src) .localBuf

/-- The body of the loop of the allgather with buffering. -/
def nreduceGatherStep (recvBuf tmpBuf reduceBuf : CclBuffer) (segSize commSize rank : Nat) (sched : Sched) (idx : Nat) :
    Sched :=
  let dst := (rank + idx) % commSize
  let src := (rank + commSize - idx) % commSize
  (sched.create (.send reduceBuf (size segSize commSize rank) dst)).create
    (.recvCopy (tmpBuf + offset segSize commSize src) (recvBuf + offset segSize commSize src)
      (size segSize commSize src) src)

/-- The body of the loop over the segments; the buffers are those of the segment. -/
def nreduceSegment (env : NreduceEnv) (isInplace : Bool) (sendBuf recvBuf tmpBuf : CclBuffer)
    (segSize commSize rank : Nat) (sched : Sched) : Option Sched :=
  let elemOffset := offset segSize commSize rank
  let elemCount := size segSize commSize rank
  let reduceBuf := if env.allreduceNreduceBuffering then tmpBuf + elemCount * rank else recvBuf + elemOffset
  let sched :=
    if isInplace = false ∨ env.allreduceNreduceBuffering then
      (sched.create (.copy (sendBuf + elemOffset) reduceBuf elemCount)).addBarrier
    else sched
  ((range' 1 (commSize - 1)).foldlM (nreduceScatterStep sendBuf tmpBuf reduceBuf segSize commSize rank) sched).bind
    fun sched =>
      let sched := sched.addBarrier
      let gathered :=
        if env.allreduceNreduceBuffering then
          let sched := (sched.create (.copy reduceBuf (recvBuf + elemOffset) elemCount)).addBarrier
          some ((range' 1 (commSize - 1)).foldl (nreduceGatherStep recvBuf tmpBuf reduceBuf segSize commSize rank)
            sched)
        else
          cclCollBuildNaiveAllgatherv env.checkInplaceAliasing (recvBuf + elemOffset) elemCount recvBuf
            (size segSize commSize) commSize rank sched
      gathered.map (·.addBarrier)

def nreduceSegments (env : NreduceEnv) (isInplace : Bool) (sendBuf recvBuf tmpBuf : CclBuffer) (commSize rank : Nat) :
    Nat → List Nat → Sched → Option Sched
  | _, [], sched => some sched
  | segOffset, segSize :: segSizes, sched =>
    (nreduceSegment env isInplace (sendBuf + segOffset) (recvBuf + segOffset) tmpBuf segSize commSize rank sched).bind
      (nreduceSegments env isInplace sendBuf recvBuf tmpBuf commSize rank (segOffset + segSize) segSizes)

/-- `ccl_coll_build_nreduce_allreduce`. -/
def cclCollBuildNreduceAllreduce (env : NreduceEnv) (sendBuf recvBuf : CclBuffer) (count dtypeSize : Nat)
    (comm : CclComm) (rank : Nat) (sched : Sched) : Option Sched :=
  if count = 0 then some sched
  else
    let isInplace := decide (sendBuf = recvBuf)
    if comm.size = 1 then some (if isInplace then sched else sched.create (.copy sendBuf recvBuf count))
    else
      let segmentSize := env.allreduceNreduceSegmentSize.getD (2 * 1024 * 1024)
      (cclGetSegmentSizes dtypeSize count segmentSize).bind fun segmentSizes =>
        (sched.allocBuffer (segmentSizes.getLastD 0 * comm.size)).bind fun (tmpBuf, sched) =>
          nreduceSegments env isInplace sendBuf recvBuf tmpBuf comm.size rank 0 segmentSizes sched

/-! ## Segment sizes -/

theorem sum_segments {total : Nat} (htotal : 0 < total) : let large := count / total + if count % total ≠ 0 then 1 else 0
    (replicate (total * large - count) (count / total) ++
      replicate (total - (total * large - count)) large).sum = count := by
  intro large
  have hdiv := Nat.div_add_mod count total
  have hlt := Nat.mod_lt count htotal
  rw [sum_append, sum_replicate_nat, sum_replicate_nat]
  by_cases hm : count % total = 0
  · rw [show large = count / total by simp only [large, hm, ne_eq, not_true_eq_false, if_false, Nat.add_zero]]
    rw [hm, Nat.add_zero] at hdiv
    rw [hdiv, Nat.sub_self, Nat.zero_mul, Nat.zero_add, Nat.sub_zero, hdiv]
  · rw [show large = count / total + 1 by simp only [large, hm, ne_eq, not_false_eq_true, if_true]]
    -- in terms of how many segments are short
    obtain ⟨a, ha⟩ : ∃ a, total = a + count % total := ⟨total - count % total, by omega⟩
    generalize count % total = m at hm hdiv hlt ha
    generalize count / total = q at hdiv
    subst ha
    have hshort : (a + m) * (q + 1) - count = a := by
      rw [← hdiv, Nat.mul_succ]
      omega
    rw [hshort, Nat.add_sub_cancel_left, ← hdiv]
    ring

/-- **The segments** cover the data, and none is empty. -/
theorem cclGetSegmentSizes_spec (hd : 0 < dtypeSize) (hc : 0 < count) (requested : Nat) :
    ∃ segs, cclGetSegmentSizes dtypeSize count requested = some segs ∧ segs.sum = count ∧ ∀ g ∈ segs, 0 < g := by
  have hne : dtypeSize * count ≠ 0 := (Nat.mul_pos hd hc).ne'
  unfold cclGetSegmentSizes
  rw [if_neg hne]
  split
  · refine ⟨_, rfl, ?_, fun g hg => ?_⟩
    · rw [sum_replicate_nat, Nat.mul_one]
    · rw [(mem_replicate.mp hg).2]
      exact Nat.one_pos
  next hreq =>
    dsimp only
    have hseg : 0 < (requested + dtypeSize - 1) / dtypeSize := Nat.div_pos (by omega) hd
    generalize (requested + dtypeSize - 1) / dtypeSize = seg at hseg
    have htotal : 0 < max ((count + seg - 1) / seg) 1 := by omega
    -- there are no more segments than elements
    have hle : max ((count + seg - 1) / seg) 1 ≤ count := by
      refine Nat.max_le.mpr ⟨Nat.div_le_of_le_mul ?_, hc⟩
      obtain ⟨s, rfl⟩ : ∃ s, seg = s + 1 := ⟨seg - 1, by omega⟩
      have := Nat.le_mul_of_pos_right s hc
      rw [Nat.succ_mul]
      omega
    generalize max ((count + seg - 1) / seg) 1 = total at htotal hle
    rw [if_pos (sum_segments htotal)]
    refine ⟨_, rfl, sum_segments htotal, fun g hg => ?_⟩
    have hq : 0 < count / total := Nat.div_pos hle htotal
    rcases mem_append.mp hg with hg | hg <;> rw [(mem_replicate.mp hg).2] <;> omega

/-! ## The groups of a segment -/

/-- The exchanges at the distances `1` to `n - 1`. -/
def distances (n : Nat) (swap : Nat → Nat → Option Swap) : List KindsRound :=
  (range' 1 (n - 1)).map fun idx => swapKinds true (swap idx)

section

variable {n g : Nat}

theorem agvOffset_parts (hr : r < n) : agvOffset (size g n) r = offset g n r := by
  induction r with
  | zero => exact (Nat.mul_zero _).symm
  | succ r ih => rw [agvOffset_succ, ih (by omega), size_of_lt hr, offset_add_div]

theorem distances_entries {f : Sched → Nat → Option Sched} (hf : ∀ idx, 0 < idx → idx < n → ∀ s, ∃ s',
      f s idx = some s' ∧ s'.entries = s.entries ++ entriesOf false (swapKinds true (swap idx) r)) (sched : Sched) :
    ∃ s, (range' 1 (n - 1)).foldlM f sched = some s ∧
      s.entries = sched.entries ++ entriesOf false ((distances n swap).flatMap (· r)) := by
  have hloop : ∀ m, m < n → ∃ s, (range' 1 m).foldlM f sched = some s ∧ s.entries = sched.entries ++
      entriesOf false (((range' 1 m).map fun idx => swapKinds true (swap idx)).flatMap (· r)) := by
    intro m hm
    induction m with
    | zero => exact ⟨sched, rfl, (append_nil _).symm⟩
    | succ m ih =>
      obtain ⟨s, h1, h2⟩ := ih (by omega)
      obtain ⟨s', h3, h4⟩ := hf (m + 1) (Nat.succ_pos m) hm s
      refine ⟨s', ?_, ?_⟩
      · rw [range'_1_concat, foldlM_append, h1, Nat.add_comm 1 m]
        exact (congrArg (· >>= pure) h3).trans (bind_pure _)
      · rw [h4, h2, range'_1_concat, map_append, flatMap_append, entriesOf_false_append,
          append_assoc, map_singleton, flatMap_singleton, Nat.add_comm 1 m]
  rcases Nat.eq_zero_or_pos n with rfl | hn
  · exact ⟨sched, rfl, (append_nil _).symm⟩
  · exact hloop (n - 1) (by omega)

theorem distances_foldl_entries {f : Sched → Nat → Sched}
    (hf : ∀ idx < n, ∀ s, (f s idx).entries = s.entries ++ entriesOf false (swapKinds true (swap idx) r)) (sched : Sched) :
    ((range' 1 (n - 1)).foldl f sched).entries =
      sched.entries ++ entriesOf false ((distances n swap).flatMap (· r)) := by
  obtain ⟨s, hs, he⟩ := distances_entries (f := fun s idx => some (f s idx))
    (fun idx _ hidx s => ⟨_, rfl, hf idx hidx s⟩) sched
  have hpure : (range' 1 (n - 1)).foldlM (fun s idx => some (f s idx)) sched =
      some ((range' 1 (n - 1)).foldl f sched) := foldlM_pure
  rw [hpure] at hs
  rw [Option.some.inj hs, he]

theorem distances_ne_nil (hn : 2 ≤ n) {x : Swap} (h : swap 1 r = some x) : (distances n swap).flatMap (· r) ≠ [] := by
  obtain ⟨m, hm⟩ : ∃ m, n - 1 = m + 1 := ⟨n - 2, by omega⟩
  unfold distances
  rw [hm, range'_succ, map_cons, flatMap_cons]
  refine append_ne_nil_of_left_ne_nil ?_ _
  rw [swapKinds, h]
  exact cons_ne_nil _ _

theorem agvGroup_parts_ne_nil {buf : CclBuffer} (hr : r < n) (hn : 2 ≤ n) (hg : 0 < g) :
    (agvGroup buf (size g n) n).flatMap (· r) ≠ [] := by
  intro hnil
  have hall : ∀ idx, 0 < idx → idx < n → agvKinds buf (size g n) n idx r = [] := by
    intro idx h0 hidx
    exact flatMap_eq_nil_iff.mp hnil _ (mem_map.mpr ⟨idx, mem_range'_1.mpr ⟨h0, by omega⟩, rfl⟩)
  have hsize : 0 < size g n (n - 1) := size_last_pos hg
  -- the last rank has data to send, and everybody else is sent it
  obtain ⟨k, hk, hlast⟩ := exists_rotDown hr (show n - 1 < n by omega)
  rcases Nat.eq_zero_or_pos k with rfl | hpos
  · have hself : r = n - 1 := by rw [hlast, rotDown, if_pos (Nat.zero_le _), Nat.sub_zero]
    have := hall 1 (by omega) (by omega)
    rw [agvKinds, agvSend, if_pos ⟨hr, hself ▸ hsize⟩] at this
    exact cons_ne_nil _ _ this
  · have := (append_eq_nil_iff.mp (hall k hpos hk)).2
    rw [agvRecv, if_pos ⟨hr, hlast ▸ hsize⟩] at this
    exact cons_ne_nil _ _ this

end

/-- The temporary buffer, the only one the schedule allocates. -/
def nreduceTmp : CclBuffer := ⟨.alloc 0 0, 0⟩

/-- The data of a segment, or of the whole call, as the ranks pass it. -/
structure Segment where
  env : NreduceEnv
  sendBuf : Nat → CclBuffer
  recvBuf : CclBuffer
  g : Nat
  n : Nat

namespace Segment

section

variable (A : Segment)

abbrev buffering : Bool := A.env.allreduceNreduceBuffering

/-- The part of rank `r`. -/
abbrev off (r : Nat) : Nat := offset A.g A.n r

abbrev len (r : Nat) : Nat := size A.g A.n r

/-- Where a rank reduces its part. -/
def own (r : Nat) : CclBuffer := if A.buffering then nreduceTmp + A.len r * r else A.recvBuf + A.off r

/-- A rank's own part goes to where it reduces. -/
def copyIn : KindsRound := fun r =>
  if r < A.n ∧ (A.sendBuf r ≠ A.recvBuf ∨ A.buffering = true) then [.copy (A.sendBuf r + A.off r) (A.own r) (A.len r)]
  else []

/-- The reduce-scatter at a distance. -/
def scatter (idx r : Nat) : Option Swap :=
  if r < A.n then
    let dst := rotDown A.n r idx
    let src := rotUp A.n r idx
    some ⟨.recvReduce (A.own r) (A.len r) src (nreduceTmp + A.len r * src) .localBuf, A.sendBuf r + A.off dst, dst,
      A.len dst, src, A.len r⟩
  else none

/-- With buffering, a rank's own result goes to where it belongs. -/
def copyOut : KindsRound := fun r => if r < A.n then [.copy (A.own r) (A.recvBuf + A.off r) (A.len r)] else []

/-- The allgather at a distance, with buffering. -/
def gather (idx r : Nat) : Option Swap :=
  if r < A.n then
    let dst := rotUp A.n r idx
    let src := rotDown A.n r idx
    some ⟨.recvCopy (nreduceTmp + A.off src) (A.recvBuf + A.off src) (A.len src) src, A.own r, dst, A.len r, src,
      A.len src⟩
  else none

def groups : List (List KindsRound) :=
  [[A.copyIn], distances A.n A.scatter] ++
    if A.buffering then [[A.copyOut], distances A.n A.gather] else [agvGroup A.recvBuf (size A.g A.n) A.n]

/-- The segment of `g` elements at an offset. -/
def cut (off g : Nat) : Segment := { A with sendBuf := fun r => A.sendBuf r + off, recvBuf := A.recvBuf + off, g }

/-- The groups of the segments from an offset on. -/
def allGroups : Nat → List Nat → List (List KindsRound)
  | _, [] => []
  | off, g :: gs => (A.cut off g).groups ++ allGroups (off + g) gs

/-- Every rank passes buffers that do not overlap, or one. -/
def Ok : Prop := ∀ r < A.n, CollBufs (A.sendBuf r) A.recvBuf A.g

end

variable {A : Segment} (hA : A.Ok) (hr : r < A.n)

include hA hr

theorem Ok.tmp_ne_recv : nreduceTmp.src ≠ A.recvBuf.src := (hA r hr).recv_ne_alloc 0 0

theorem scatterStep_entries (h0 : 0 < idx) (hidx : idx < A.n) (s : Sched) :
    ∃ s', nreduceScatterStep (A.sendBuf r) nreduceTmp (A.own r) A.g A.n r s idx = some s' ∧
      s'.entries = s.entries ++ entriesOf false (swapKinds true (A.scatter idx) r) := by
  unfold nreduceScatterStep
  rw [mod_rotDown hr hidx, mod_rotUp hr hidx]
  refine ⟨_, createRecvReduce_given _ _ _ _ ?_ nofun fun hpos he => ?_, ?_⟩
  · unfold own
    split
    · exact nofun
    · exact (hA r hr).recv_ne_null
  · -- a rank's own slot is not the slot of another
    unfold own at he
    split at he
    · have hoff := congrArg CclBuffer.offset he
      rw [CclBuffer.add_offset, CclBuffer.add_offset, Nat.add_left_cancel_iff] at hoff
      exact rotUp_ne h0 hidx (Nat.eq_of_mul_eq_mul_left hpos hoff)
    · have hsrc := congrArg CclBuffer.src he
      exact hA.tmp_ne_recv hr hsrc
  · rw [swapKinds, scatter, if_pos hr]
    simp [entriesOf, Swap.kinds, create]

omit hA in
theorem gatherStep_entries (hidx : idx < A.n) (s : Sched) :
    (nreduceGatherStep A.recvBuf nreduceTmp (A.own r) A.g A.n r s idx).entries =
      s.entries ++ entriesOf false (swapKinds true (A.gather idx) r) := by
  unfold nreduceGatherStep
  rw [mod_rotDown hr hidx, mod_rotUp hr hidx, swapKinds, gather, if_pos hr]
  simp [entriesOf, Swap.kinds, create]

/-- **One segment** of the loop is the groups of the segment. -/
theorem segment_entries (hn : 2 ≤ A.n) (hg : 0 < A.g) (sched : Sched) :
    ∃ s, nreduceSegment A.env (decide (A.sendBuf r = A.recvBuf)) (A.sendBuf r) A.recvBuf nreduceTmp A.g A.n r sched =
        some s ∧
      s.entries = sched.entries ++ (kindGroupsAt A.groups r).flatten := by
  -- the copy, if there is one
  obtain ⟨s₁, hs₁, he₁⟩ : ∃ s₁, (if decide (A.sendBuf r = A.recvBuf) = false ∨ A.buffering = true then
        (sched.create (.copy (A.sendBuf r + A.off r) (A.own r) (A.len r))).addBarrier
      else sched) = s₁ ∧ s₁.entries = sched.entries ++ entriesOf true (A.copyIn r) := by
    refine ⟨_, rfl, ?_⟩
    unfold copyIn
    by_cases h : A.sendBuf r ≠ A.recvBuf ∨ A.buffering = true
    · rw [if_pos (h.imp_left decide_eq_false), if_pos ⟨hr, h⟩, addBarrier_create_entries, entriesOf_singleton]
    · rw [if_neg (fun hc => h (hc.imp_left of_decide_eq_false)), if_neg fun hc => h hc.2, entriesOf_nil,
        append_nil]
  obtain ⟨s₂, hs₂, he₂⟩ := distances_entries (fun idx h0 hidx s => scatterStep_entries hA hr h0 hidx s) s₁
  have he₂' := addBarrier_group he₂ (distances_ne_nil hn (if_pos hr))
  -- the rest of the segment
  obtain ⟨s₃, hs₃, he₃⟩ : ∃ s₃, (if A.buffering = true then
        some ((range' 1 (A.n - 1)).foldl (nreduceGatherStep A.recvBuf nreduceTmp (A.own r) A.g A.n r)
          (s₂.addBarrier.create (.copy (A.own r) (A.recvBuf + A.off r) (A.len r))).addBarrier)
      else cclCollBuildNaiveAllgatherv A.env.checkInplaceAliasing (A.recvBuf + A.off r) (A.len r) A.recvBuf
        (size A.g A.n) A.n r s₂.addBarrier) = some s₃ ∧ s₃.addBarrier.entries = s₂.addBarrier.entries ++
          (kindGroupsAt (if A.buffering = true then [[A.copyOut], distances A.n A.gather]
            else [agvGroup A.recvBuf (size A.g A.n) A.n]) r).flatten := by
    by_cases hb : A.buffering = true
    · rw [if_pos hb, if_pos hb]
      refine ⟨_, rfl, ?_⟩
      rw [addBarrier_group (distances_foldl_entries (fun idx hidx s => gatherStep_entries hr hidx s) _)
        (distances_ne_nil hn (if_pos hr)), addBarrier_create_entries]
      simp [kindGroupsAt, copyOut, hr]
    · rw [if_neg hb, if_neg hb]
      obtain ⟨s₃, hs₃, he₃⟩ := cclCollBuildNaiveAllgatherv_entries A.recvBuf (size A.g A.n)
        A.env.checkInplaceAliasing hr s₂.addBarrier
      rw [agvOffset_parts hr] at hs₃
      refine ⟨s₃, hs₃, ?_⟩
      rw [addBarrier_group he₃ (agvGroup_parts_ne_nil hr hn hg), kindGroupsAt, map_singleton,
        flatten_singleton]
  refine ⟨s₃.addBarrier, ?_, ?_⟩
  · unfold nreduceSegment
    dsimp only
    rw [show (if A.buffering = true then nreduceTmp + A.len r * r else A.recvBuf + A.off r) = A.own r from rfl, hs₁, hs₂]
    show Option.map _ (if _ then _ else _) = _
    rw [hs₃]
    rfl
  · rw [he₃, he₂', he₁, groups]
    simp [kindGroupsAt]

omit hr in
theorem Ok.cut {off g : Nat} (hle : off + g ≤ A.g) : (A.cut off g).Ok := fun r hr => (hA r hr).part hle

/-- **All segments** of the loop are the groups of all segments. -/
theorem segments_entries (hn : 2 ≤ A.n) {segs : List Nat} (hpos : ∀ g ∈ segs, 0 < g) {off : Nat}
    (hle : off + segs.sum ≤ A.g) (sched : Sched) :
    ∃ s, nreduceSegments A.env (decide (A.sendBuf r = A.recvBuf)) (A.sendBuf r) A.recvBuf nreduceTmp A.n r off segs
        sched = some s ∧
      s.entries = sched.entries ++ (kindGroupsAt (A.allGroups off segs) r).flatten := by
  induction segs generalizing off sched with
  | nil => exact ⟨sched, rfl, (append_nil _).symm⟩
  | cons g gs ih =>
    rw [sum_cons] at hle
    have hplace : decide (A.sendBuf r = A.recvBuf) = decide (A.sendBuf r + off = A.recvBuf + off) :=
      decide_eq_decide.mpr ⟨fun h => h ▸ rfl, CclBuffer.add_right_cancel⟩
    have hcut : (A.cut off g).Ok := hA.cut (by omega)
    obtain ⟨s₁, hs₁, he₁⟩ := segment_entries hcut hr hn (hpos g mem_cons_self) sched
    obtain ⟨s₂, hs₂, he₂⟩ := ih (fun g' h' => hpos g' (mem_cons_of_mem _ h'))
      (show off + g + gs.sum ≤ A.g by omega) s₁
    refine ⟨s₂, ?_, ?_⟩
    · rw [nreduceSegments, hplace]
      refine (congrArg (Option.bind · _) hs₁).trans ?_
      rw [← hplace]
      exact hs₂
    · rw [he₂, he₁, allGroups, kindGroupsAt, kindGroupsAt, kindGroupsAt, map_append, flatten_append,
        append_assoc]

end Segment

/-- **The schedule of the nreduce allreduce** on two ranks or more. -/
theorem cclCollBuildNreduceAllreduce_entries (env : NreduceEnv) (hd : 0 < dtypeSize) (comm : CclComm)
    (hn : 2 ≤ comm.size) (hcount : 0 < count) {sendBuf : Nat → CclBuffer} {recvBuf : CclBuffer}
    (hbufs : ∀ r < comm.size, CollBufs (sendBuf r) recvBuf count) :
    ∃ segs, segs.sum = count ∧ (∀ g ∈ segs, 0 < g) ∧ ∀ r < comm.size,
      ∃ s, cclCollBuildNreduceAllreduce env (sendBuf r) recvBuf count dtypeSize comm r (.new 0) = some s ∧
        s.entries = (kindGroupsAt (Segment.allGroups ⟨env, sendBuf, recvBuf, count, comm.size⟩ 0 segs) r).flatten := by
  obtain ⟨segs, hsegs, hsum, hpos⟩ := cclGetSegmentSizes_spec hd hcount
    (env.allreduceNreduceSegmentSize.getD (2 * 1024 * 1024))
  refine ⟨segs, hsum, hpos, fun r hr => ?_⟩
  have hne : segs ≠ [] := by
    rintro rfl
    rw [sum_nil] at hsum
    omega
  have hlast : 0 < segs.getLastD 0 * comm.size := by
    rw [getLastD_eq_getLast?, getLast?_eq_some_getLast hne]
    exact Nat.mul_pos (hpos _ (getLast_mem hne)) (by omega)
  obtain ⟨s, hs, he⟩ := Segment.segments_entries (A := ⟨env, sendBuf, recvBuf, count, comm.size⟩) hbufs hr hn hpos
    (show 0 + segs.sum ≤ count by omega) { (new 0) with allocs := 1 }
  refine ⟨s, ?_, he⟩
  unfold cclCollBuildNreduceAllreduce
  rw [if_neg (by omega), if_neg (by omega)]
  dsimp only
  rw [hsegs]
  show Option.bind (allocBuffer _ _) _ = _
  rw [allocBuffer_of_pos _ hlast]
  exact hs

end OneCcl
