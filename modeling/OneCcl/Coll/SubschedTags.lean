import OneCcl.Comm.AtlTag
import OneCcl.Coll.DoubleTreeStages
import OneCcl.Coll.TwoDimAllreduce

/-!
# Tags of sub-schedules

The sub-schedules of one collective share its schedule id, and their messages are told apart by the operation id alone. The
builders of double trees and of 2D collectives count it up, over parts and chunks whose number comes from the environment.
It is kept in 8 bits, of which a tag may have 4. So the sub-schedules of a double tree have tags of their own as long as
both trees together have no more parts than the field has values, and those of a 2D collective with up to two chunks, since
from the third chunk on `RS_AR_AG` and the `AR_AG` it starts have one operation id (`subsched_tags_iff`).
-/

namespace OneCcl

open List Sched

variable {buf : CclBuffer} {subs : List SubSched} {chunkIdx chunkCount cnt : Nat} {s : Sched}

/-- `ccl_op_id_t` is a `uint8_t`. -/
def SubSched.getOpId (s : SubSched) : Nat := s.opId % 2 ^ 8

/-- Whether the schedule has a message for a rank. -/
def SubSched.SendsTo (s : SubSched) (dst : Nat) : Prop := ∃ e ∈ s.sched.entries, ∃ cnt, e.kind.sentTo = some (dst, cnt)

/-- Messages of two schedules that go to one rank have different tags, whatever rank, communicator and schedule they come
from. -/
def TagsApart (tags : AtlTag) (x y : SubSched) : Prop :=
  ∀ dst, x.SendsTo dst → y.SendsTo dst → ∀ rank commId schedId,
    tags.create rank commId schedId x.getOpId ≠ tags.create rank commId schedId y.getOpId

instance (tags : AtlTag) : Std.Symm (TagsApart tags) :=
  ⟨fun _ _ h dst hy hx rank commId schedId => (h dst hx hy rank commId schedId).symm⟩

def TagsSeparate (tags : AtlTag) (subs : List SubSched) : Prop := subs.Pairwise (TagsApart tags)

/-- Collectives with sub-schedules that count their operation ids up. -/
inductive ManyParts where
  | doubleTree (parts : Nat)
  | twoDim (chunkCount : Nat)
  deriving DecidableEq, Repr

/-- The sub-schedules that a rank may get from the builder. -/
inductive ManyParts.Builds : ManyParts → List SubSched → Prop
  | doubleTree {parts : Nat} (collType : DoubleTreeColl) {commSize rank root : Nat} (hrank : rank < commSize)
    (hroot : root < commSize) (sendBuf : CclBuffer) {recvBuf : CclBuffer} (hbuf : recvBuf.src ≠ .null) (count : Nat)
    {s : ParentSched}
    (hs : cclCollBuildDoubleTreeOp collType sendBuf recvBuf count (doubleTreeOf commSize rank root) rank (some parts)
      (.new 0) = some s) :
    Builds (.doubleTree parts) (s.children.map fun c => ⟨c.num - 1, c⟩)
  | twoDim {chunkCount : Nat} (env : TwoDimEnv) (sendBuf recvBuf : CclBuffer) (count dtypeSize : Nat)
    (firstDim secondDim : DimComm) {s : Sched} {subs : List SubSched}
    (hs : cclCollBuild2dAllreduce env sendBuf recvBuf count dtypeSize firstDim secondDim chunkCount (.new 0) =
      some (s, subs)) :
    Builds (.twoDim chunkCount) subs

def ManyParts.Fits (coll : ManyParts) (layout : TagLayout) : Prop :=
  match coll with
  | .doubleTree parts => 2 * parts ≤ 2 ^ layout.opIdBits
  | .twoDim chunkCount => chunkCount ≤ 2

/-! ## Operation ids of a double tree -/

theorem treeFill_some (collType : DoubleTreeColl) (tree : CclBinTree) (hbuf : buf.src ≠ .null) (cnt num : Nat) :
    ∃ s, treeFill collType tree buf cnt (.new num) = some s ∧ s.num = num := by
  cases collType with
  | bcast | broadcast => exact ⟨_, rfl, bcastTree_num⟩
  | reduce =>
    obtain ⟨s, hs, hnum, -⟩ := reduceTree_eq tree cnt num hbuf
    exact ⟨s, hs, hnum⟩
  | allreduce =>
    obtain ⟨s, hs, hnum, -⟩ := reduceBcastTree_eq tree cnt num hbuf
    exact ⟨s, hs, hnum⟩

/-- The numbers of the two schedules of an iteration, as the rank starts them. -/
def partNums (collType : DoubleTreeColl) (rank parts j : Nat) : List Nat :=
  if t1First collType rank = true then [j + 1, parts + j + 1] else [parts + j + 1, j + 1]

/-- The loop before part `k`. -/
structure NumsInv (collType : DoubleTreeColl) (dtree : CclDoubleTree) (rank parts k : Nat) (x : DoubleTreeLoop) : Prop where
  buf1 : x.t1WorkBuf.src ≠ .null
  buf2 : x.t2WorkBuf.src ≠ .null
  id1 : x.t1OpId = k
  id2 : x.t2OpId = parts + k
  nums : x.sched.children.map (·.num) = (range k).flatMap (partNums collType rank parts)
  filled : ∀ c ∈ x.sched.children, ∃ tree buf cnt, (tree = dtree.t1 ∨ tree = dtree.t2) ∧ buf.src ≠ .null ∧
    treeFill collType tree buf cnt (.new c.num) = some c

variable {collType : DoubleTreeColl} {rank parts : Nat} {tags : AtlTag}

/-- A turn of the loop numbers the two schedules of its part. -/
theorem NumsInv.step {dtree : CclDoubleTree} {k t1Count t2Count : Nat}
    {x : DoubleTreeLoop} (hx : NumsInv collType dtree rank parts k x) : ∃ x',
    doubleTreeIter collType dtree rank t1Count t2Count parts x k = some x' ∧
      NumsInv collType dtree rank parts (k + 1) x' := by
  obtain ⟨s1, hs1, hnum1⟩ := treeFill_some collType dtree.t1 hx.buf1
    (if k < t1Count % parts then t1Count / parts + 1 else t1Count / parts) (x.t1OpId + 1)
  obtain ⟨s2, hs2, hnum2⟩ := treeFill_some collType dtree.t2 hx.buf2
    (if k < t2Count % parts then t2Count / parts + 1 else t2Count / parts) (x.t2OpId + 1)
  rw [hx.id1] at hnum1
  rw [hx.id2] at hnum2
  refine ⟨_, congrArg (· >>= _) (doubleTreeStep_eq hs1 hs2), hx.buf1, hx.buf2, ?_, ?_, ?_, ?_⟩
  · show x.t1OpId + 1 = k + 1
    rw [hx.id1]
  · show x.t2OpId + 1 = parts + (k + 1)
    rw [hx.id2, Nat.add_assoc]
  · show (if _ then (_ : ParentSched) else _).children.map _ = _
    rw [range_succ, flatMap_append, flatMap_singleton, ← hx.nums, partNums]
    split <;> simp [hnum1, hnum2]
  · have hmem : ∀ c ∈ (if t1First collType rank = true then (⟨(x.sched.sched.create (.subsched (x.t1OpId + 1))).create
        (.subsched (x.t2OpId + 1)), x.sched.children ++ [s1] ++ [s2]⟩ : ParentSched) else
          ⟨(x.sched.sched.create (.subsched (x.t2OpId + 1))).create (.subsched (x.t1OpId + 1)),
            x.sched.children ++ [s2] ++ [s1]⟩).children, c ∈ x.sched.children ∨ c = s1 ∨ c = s2 := by
      intro c hc
      split at hc <;> simp only [mem_append, mem_singleton] at hc <;> grind
    intro c hc
    rcases hmem c hc with hc | rfl | rfl
    · exact hx.filled c hc
    · exact ⟨_, _, _, .inl rfl, hx.buf1, hnum1 ▸ hx.id1 ▸ hs1⟩
    · exact ⟨_, _, _, .inr rfl, hx.buf2, hnum2 ▸ hx.id2 ▸ hs2⟩

/-- **The children of a double tree.** -/
theorem doubleTree_children (collType : DoubleTreeColl) (sendBuf : CclBuffer) {recvBuf : CclBuffer}
    (hbuf : recvBuf.src ≠ .null) (count rank : Nat) (hparts : 0 < parts) (dtree : CclDoubleTree) : ∃ s,
    cclCollBuildDoubleTreeOp collType sendBuf recvBuf count dtree rank (some parts) (.new 0) = some s ∧
      s.children.map (·.num) = (range parts).flatMap (partNums collType rank parts) ∧
      ∀ c ∈ s.children, ∃ tree buf cnt, (tree = dtree.t1 ∨ tree = dtree.t2) ∧ buf.src ≠ .null ∧
        treeFill collType tree buf cnt (.new c.num) = some c := by
  have hinit : NumsInv collType dtree rank parts 0
      ⟨⟨if collType ≠ .bcast then copyIn sendBuf recvBuf count (.new 0) else .new 0, []⟩, recvBuf, recvBuf + count / 2, 0,
        parts⟩ :=
    ⟨hbuf, hbuf, rfl, rfl, rfl, forall_mem_nil _⟩
  obtain ⟨x, hx, hinv⟩ := foldlM_range (m := parts) hinit fun k _ x hx => hx.step
  refine ⟨⟨x.sched.sched.addBarrier, x.sched.children⟩, ?_, hinv.nums, hinv.filled⟩
  rw [cclCollBuildDoubleTreeOp, Option.getD_some, if_neg hparts.ne', hx]
  rfl

theorem mem_partNums {j c : Nat} : c ∈ partNums collType rank parts j ↔ c = j + 1 ∨ c = parts + j + 1 := by
  unfold partNums
  split <;> simp [or_comm]

theorem nodup_partNums (collType : DoubleTreeColl) (rank parts : Nat) :
    ((range parts).flatMap (partNums collType rank parts)).Nodup := by
  rw [nodup_flatMap]
  constructor
  · intro j hj
    have := mem_range.mp hj
    unfold partNums
    split <;> simp <;> omega
  · refine pairwise_lt_range.imp_of_mem fun {j k} hj hk hlt => ?_
    have := mem_range.mp hk
    intro c hc hc'
    rw [mem_partNums] at hc hc'
    omega

theorem mem_nums {o : Nat} : o ∈ (range parts).flatMap (partNums collType rank parts) ↔ 0 < o ∧ o ≤ 2 * parts := by
  simp only [mem_flatMap, mem_range, mem_partNums]
  constructor
  · rintro ⟨j, hj, h⟩
    omega
  · rintro ⟨hpos, hle⟩
    by_cases h : o ≤ parts
    · exact ⟨o - 1, by omega, .inl (by omega)⟩
    · exact ⟨o - parts - 1, by omega, .inr (by omega)⟩

/-! ## Tags enough -/

theorem tagsSeparate_of_nodup (hnodup : (subs.map (·.opId)).Nodup)
    (hlt : ∀ x ∈ subs, x.opId < 2 ^ tags.layout.opIdBits) : TagsSeparate tags subs := by
  have hbits : 2 ^ tags.layout.opIdBits ≤ 2 ^ 8 := Nat.pow_le_pow_right (by decide) tags.layout.opIdBits_le
  have hid : ∀ x ∈ subs, x.getOpId % 2 ^ tags.layout.opIdBits = x.opId := by
    intro x hx
    rw [SubSched.getOpId, Nat.mod_eq_of_lt ((hlt x hx).trans_le hbits), Nat.mod_eq_of_lt (hlt x hx)]
  refine (pairwise_map.mp hnodup).imp_of_mem fun {x y} hx hy hne dst _ _ rank commId schedId => ?_
  apply tags.create_ne
  rw [hid x hx, hid y hy]
  exact hne

theorem not_tagsApart {x y : SubSched} {dst : Nat} (hx : x.SendsTo dst) (hy : y.SendsTo dst)
    (h : x.opId % 2 ^ tags.layout.opIdBits = y.opId % 2 ^ tags.layout.opIdBits) : ¬TagsApart tags x y := by
  intro hne
  have hdvd : 2 ^ tags.layout.opIdBits ∣ 2 ^ 8 := Nat.pow_dvd_pow 2 tags.layout.opIdBits_le
  refine hne dst hx hy 0 0 0 (tags.create_congr ?_ 0 0 0)
  rw [SubSched.getOpId, SubSched.getOpId, Nat.mod_mod_of_dvd _ hdvd, Nat.mod_mod_of_dvd _ hdvd, h]

theorem doubleTree_separate (h : 2 * parts ≤ 2 ^ tags.layout.opIdBits)
    (hsubs : (ManyParts.doubleTree parts).Builds subs) : TagsSeparate tags subs := by
  obtain @⟨_, collType, commSize, rank, root, hrank, hroot, sendBuf, recvBuf, hbuf, count, s, hs⟩ := hsubs
  have hparts : 0 < parts := by
    by_contra hzero
    obtain rfl : parts = 0 := by omega
    exact absurd hs nofun
  obtain ⟨s', hs', hnums, -⟩ :=
    doubleTree_children collType sendBuf hbuf count rank hparts (doubleTreeOf commSize rank root)
  obtain rfl := Option.some.inj (hs'.symm.trans hs)
  have hmem : ∀ c ∈ s'.children, 0 < c.num ∧ c.num ≤ 2 * parts := by
    intro c hc
    exact mem_nums.mp (hnums ▸ mem_map_of_mem hc)
  refine tagsSeparate_of_nodup ?_ ?_
  · have hnodup := hnums ▸ nodup_partNums collType _ parts
    rw [map_map]
    refine pairwise_map.mpr ((pairwise_map.mp hnodup).imp_of_mem fun {c c'} hc hc' hne heq => hne ?_)
    have := (hmem c hc).1
    have := (hmem c' hc').1
    have heq' : c.num - 1 = c'.num - 1 := heq
    omega
  · intro x hx
    obtain ⟨c, hc, rfl⟩ := mem_map.mp hx
    obtain ⟨hpos, hle⟩ := hmem c hc
    show c.num - 1 < _
    omega

section

variable {env : TwoDimEnv} {sendBuf recvBuf : CclBuffer} {count dtypeSize : Nat} {firstDim secondDim : DimComm}
  {chunkCount : Nat}

theorem twoDim_opIds {rest : Nat} {sched : Sched}
    (h : allreduce2dAddReduceScatterAllreduceAllgather env sendBuf recvBuf count dtypeSize firstDim secondDim
      chunkCount rest chunkIdx sched = some (s, subs)) :
    subs.map (·.opId) = (range' chunkIdx rest).flatMap fun j => [j, j + 1] := by
  induction rest generalizing chunkIdx sched s subs with
  | zero =>
    obtain ⟨rs, -, h⟩ := Option.bind_eq_some_iff.mp h
    obtain ⟨s', -, h⟩ := Option.bind_eq_some_iff.mp h
    cases h
    rfl
  | succ rest ih =>
    obtain ⟨rs, -, h⟩ := Option.bind_eq_some_iff.mp h
    obtain ⟨arAg, -, h⟩ := Option.bind_eq_some_iff.mp h
    obtain ⟨⟨rsArAg, below⟩, hbelow, h⟩ := Option.bind_eq_some_iff.mp h
    cases h
    rw [map_cons, map_cons, ih hbelow]
    rfl

end

theorem twoDim_separate (h : chunkCount ≤ 2) (hsubs : (ManyParts.twoDim chunkCount).Builds subs) :
    TagsSeparate tags subs := by
  obtain ⟨env, sendBuf, recvBuf, count, dtypeSize, firstDim, secondDim, s, hs⟩ : ∃ env sendBuf recvBuf count dtypeSize
      firstDim secondDim s, cclCollBuild2dAllreduce env sendBuf recvBuf count dtypeSize firstDim secondDim chunkCount
        (.new 0) = some (s, subs) := by
    cases hsubs with
    | twoDim env sendBuf recvBuf count dtypeSize firstDim secondDim hs => exact ⟨_, _, _, _, _, _, _, _, hs⟩
  have htwo : 2 ≤ 2 ^ tags.layout.opIdBits := by
    cases tags.layout <;> decide
  -- no sub-schedules, or those of the first and the second chunk
  have hids : subs.map (·.opId) = [] ∨ subs.map (·.opId) = [0, 1] := by
    unfold cclCollBuild2dAllreduce at hs
    split at hs
    · cases hs
      exact .inl rfl
    · rw [twoDim_opIds hs]
      obtain h | h : chunkCount - 1 = 0 ∨ chunkCount - 1 = 1 := by omega
      · exact .inl (by rw [h]; rfl)
      · exact .inr (by rw [h]; rfl)
  refine tagsSeparate_of_nodup ?_ ?_
  · rcases hids with h | h <;> rw [h] <;> decide
  · intro x hx
    have hmem := mem_map_of_mem (f := SubSched.opId) hx
    rcases hids with h | h <;> rw [h] at hmem
    · cases hmem
    · simp only [mem_cons, not_mem_nil, or_false] at hmem
      omega

/-! ## Two ranks -/

theorem pair_sends {tree : CclBinTree} (htree : tree = (doubleTreeOf 2 0 0).t1 ∨ tree = (doubleTreeOf 2 0 0).t2)
    (hbuf : buf.src ≠ .null) {num : Nat} (hs : treeFill .allreduce tree buf cnt (.new num) = some s) (opId : Nat) :
    SubSched.SendsTo ⟨opId, s⟩ 1 := by
  obtain ⟨s', hs', -, hentries⟩ := reduceBcastTree_eq tree cnt num hbuf
  cases hs'.symm.trans hs
  have hright : tree.links.left = none ∧ tree.links.right = some 1 := by
    rcases htree with rfl | rfl <;> decide
  refine ⟨⟨.send buf cnt 1, false⟩, ?_, cnt, rfl⟩
  rw [hentries]
  simp [upDown, childSends, hright.1, hright.2]

theorem doubleTree_collide (tags : AtlTag) (h : 2 ^ tags.layout.opIdBits < 2 * parts) :
    ∃ subs, (ManyParts.doubleTree parts).Builds subs ∧ ¬TagsSeparate tags subs := by
  have hparts : 0 < parts := Nat.pos_of_mul_pos_left (Nat.zero_lt_of_lt h)
  have hnull : (⟨.user 1, 0⟩ : CclBuffer).src ≠ .null := by decide
  obtain ⟨s, hs, hnums, hfilled⟩ := doubleTree_children .allreduce ⟨.user 0, 0⟩ hnull 1 0 hparts (doubleTreeOf 2 0 0)
  refine ⟨_, .doubleTree .allreduce (by decide) (by decide) ⟨.user 0, 0⟩ hnull 1 hs, fun hsep => ?_⟩
  -- the schedules of the operation ids 0 and 2 ^ opIdBits
  have hget : ∀ o, o < 2 * parts → ∃ c ∈ s.children, c.num - 1 = o ∧ SubSched.SendsTo ⟨c.num - 1, c⟩ 1 := by
    intro o ho
    obtain ⟨c, hc, hnum⟩ := mem_map.mp (hnums ▸ mem_nums.mpr ⟨Nat.succ_pos o, ho⟩)
    obtain ⟨tree, buf, cnt, htree, hbuf, hfill⟩ := hfilled c hc
    exact ⟨c, hc, by omega, pair_sends htree hbuf hfill _⟩
  obtain ⟨c, hc, hnum, hsends⟩ := hget 0 (by omega)
  obtain ⟨c', hc', hnum', hsends'⟩ := hget (2 ^ tags.layout.opIdBits) h
  have hne : (⟨c.num - 1, c⟩ : SubSched) ≠ ⟨c'.num - 1, c'⟩ := by
    intro heq
    have := congrArg SubSched.opId heq
    have := Nat.two_pow_pos tags.layout.opIdBits
    simp only at *
    omega
  refine not_tagsApart hsends hsends' ?_ (List.Pairwise.forall hsep (mem_map_of_mem hc) (mem_map_of_mem hc') hne)
  rw [hnum, hnum', Nat.mod_self, Nat.zero_mod]

/-! ## Three chunks -/

/-- Rank 0 of two in the first dimension, -/
def pairDim : DimComm := ⟨.pair, 0, id⟩

/-- and alone in the second. -/
def soloDim : DimComm := ⟨.solo, 0, fun _ => 0⟩

/-- One chunk in the reduce-scatter, and no buffering. -/
def twoDimDefaults : TwoDimEnv := ⟨⟨1, 65536⟩, ⟨false, none, true⟩⟩

theorem mk_add (src : BufSrc) (o d : Nat) : (⟨src, o⟩ : CclBuffer) + d = ⟨src, o + d⟩ := rfl

theorem unit_inplace (o : Nat) : isAllgathervInplace true ⟨.user 1, o⟩ 1 ⟨.user 1, o⟩ (fun _ => 1) 0 2 = some true :=
  isAllgathervInplace_block true ⟨.user 1, o⟩ (fun _ => 1) 0 2

section

variable (num k : Nat)

theorem pair_reduceScatter (hc : cnt = 2) : (new num).onComm pairDim.global
    (cclCollBuildReduceScatterBlock twoDimDefaults.rs ⟨.user 0, k⟩ ⟨.user 1, k⟩ cnt 4 pairDim.comm pairDim.rank) =
    some ⟨num, [⟨.send ⟨.user 0, k + 1⟩ 1 1, false⟩, ⟨.recvReduce ⟨.user 0, k⟩ 1 1 ⟨.user 1, k⟩ .commBuf, true⟩], 0⟩ := by
  subst hc
  have hchunks : rsChunkCount twoDimDefaults.rs 2 4 2 = 1 := by decide
  simp [onComm, cclCollBuildReduceScatterBlock, CclBuffer.toBool, hchunks, mk_add, pairDim, rsBlock, rsBufs, rsChunk,
    Parts.size, Parts.offset, createRecvReduce, new, create, addBarrier, makeLastBarrier,
    EntryKind.onRanks]

theorem pair_allreduceAllgather (hc : chunkCnt (2 * chunkCount) chunkCount chunkIdx = 2) :
    ∃ s, allreduce2dAddAllreduceAllgather twoDimDefaults ⟨.user 1, 0⟩ (2 * chunkCount) 4 pairDim soloDim chunkCount chunkIdx
      (.new num) = some s ∧ ∀ opId, SubSched.SendsTo ⟨opId, s⟩ 1 := by
  refine ⟨⟨num, [⟨.send ⟨.user 1, chunkIdx * (2 * chunkCount / chunkCount)⟩ 1 1, false⟩,
    ⟨.recv ⟨.user 1, chunkIdx * (2 * chunkCount / chunkCount) + 1⟩ 1 1, true⟩], 0⟩, ?_,
    fun opId => ⟨_, mem_cons_self, 1, rfl⟩⟩
  simp [allreduce2dAddAllreduceAllgather, hc, mk_add, unit_inplace, pairDim, soloDim, twoDimDefaults,
    cclCollBuildNreduceAllreduce, onComm, cclCollBuildRingAllgatherv, ringAllgathervCopy, ringAllgathervStep,
    ringAllgathervPart, MainSched.sub, blockThreadCount, agvOffset, new, schedOffset, create, addBarrier,
    makeLastBarrier, EntryKind.onRanks, mapIdx, mapIdx.go]

theorem pair_allreduceAllgather_some (hc : chunkCnt (2 * chunkCount) chunkCount chunkIdx = 2) (sched : Sched) :
    ∃ s, allreduce2dAddAllreduceAllgather twoDimDefaults ⟨.user 1, 0⟩ (2 * chunkCount) 4 pairDim soloDim
      chunkCount chunkIdx sched = some s := by
  simp [allreduce2dAddAllreduceAllgather, hc, mk_add, unit_inplace, pairDim, soloDim, twoDimDefaults,
    cclCollBuildNreduceAllreduce, onComm, cclCollBuildRingAllgatherv, ringAllgathervCopy]

end

section

variable {chunkCount : Nat}

theorem chunkCnt_double (h : 0 < chunkCount) (chunkIdx : Nat) : chunkCnt (2 * chunkCount) chunkCount chunkIdx = 2 := by
  unfold chunkCnt
  rw [Nat.mul_mod_left, Nat.mul_div_cancel _ h]
  exact ite_self 2

/-- The schedule of a chunk is made, and with a chunk behind it, it and the schedule that goes on with the chunk both send
to rank 1. -/
theorem pair_chunks (h : 0 < chunkCount) (rest chunkIdx num : Nat) : ∃ s subs,
    allreduce2dAddReduceScatterAllreduceAllgather twoDimDefaults ⟨.user 0, 0⟩ ⟨.user 1, 0⟩ (2 * chunkCount) 4 pairDim soloDim
      chunkCount rest chunkIdx (.new num) = some (s, subs) ∧ (0 < rest → (∀ opId, SubSched.SendsTo ⟨opId, s⟩ 1) ∧
      ∃ arAg subs', subs = ⟨chunkIdx, arAg⟩ :: subs' ∧ ∀ opId, SubSched.SendsTo ⟨opId, arAg⟩ 1) := by
  have hc := fun idx => chunkCnt_double h idx
  have hrs := fun num idx => pair_reduceScatter num (0 + idx * (2 * chunkCount / chunkCount)) (hc idx)
  induction rest generalizing chunkIdx num with
  | zero =>
    obtain ⟨s, hs⟩ := pair_allreduceAllgather_some (hc chunkIdx) _
    exact ⟨s, [], addReduceScatterAllreduceAllgather_zero (hrs num chunkIdx) hs, fun h => absurd h (Nat.lt_irrefl 0)⟩
  | succ rest ih =>
    obtain ⟨arAg, harAg, hsends⟩ := pair_allreduceAllgather (2 * chunkIdx + 1) (hc chunkIdx)
    obtain ⟨s, subs, hs, -⟩ := ih (chunkIdx + 1) (2 * chunkIdx + 2)
    refine ⟨_, _, addReduceScatterAllreduceAllgather_succ (hrs num chunkIdx) harAg hs, fun _ => ⟨?_, arAg, _, rfl, hsends⟩⟩
    exact fun opId => ⟨_, mem_cons_self, 1, rfl⟩

theorem twoDim_collide (tags : AtlTag) (h : 2 < chunkCount) :
    ∃ subs, (ManyParts.twoDim chunkCount).Builds subs ∧ ¬TagsSeparate tags subs := by
  have hpos : 0 < chunkCount := Nat.zero_lt_of_lt h
  obtain ⟨rest, rfl⟩ : ∃ rest, chunkCount = rest + 3 := ⟨chunkCount - 3, by omega⟩
  obtain ⟨rs, subs, hrs, hsub⟩ := pair_chunks hpos (rest + 1) 1 2
  obtain ⟨hsends, arAg, subs', rfl, hsends'⟩ := hsub (Nat.succ_pos rest)
  obtain ⟨arAg0, harAg0, -⟩ := pair_allreduceAllgather 1 (chunkCnt_double hpos 0)
  have hrs0 := pair_reduceScatter 0 (0 + 0 * (2 * (rest + 3) / (rest + 3))) (chunkCnt_double hpos 0)
  have hbuild := addReduceScatterAllreduceAllgather_succ hrs0 harAg0 hrs
  refine ⟨_, .twoDim twoDimDefaults ⟨.user 0, 0⟩ ⟨.user 1, 0⟩ (2 * (rest + 3)) 4 pairDim soloDim hbuild, fun hsep => ?_⟩
  -- the schedule of the second chunk, and the one that it starts
  have hpair := (pairwise_cons.mp (pairwise_cons.mp hsep).2).1 _ mem_cons_self
  exact not_tagsApart (hsends 1) (hsends' 1) rfl hpair

end

/-- **Tags of sub-schedules.** Every tag is made and is no more than `max_tag`, and the sub-schedules of a double tree or a 2D
collective have tags of their own, in every communicator and on every rank, exactly when there are tags enough. -/
theorem subsched_tags_iff (tags : AtlTag) (coll : ManyParts) :
    (∀ rank commId schedId opId, ∃ tag, tags.create rank commId schedId opId = some tag ∧ tag ≤ tags.maxTag) ∧
    ((∀ subs, coll.Builds subs → TagsSeparate tags subs) ↔ coll.Fits tags.layout) := by
  refine ⟨fun rank commId schedId opId => ?_, ?_⟩
  · obtain ⟨tag, htag, hle, -⟩ := tags.create_eq rank commId schedId opId
    exact ⟨tag, htag, hle⟩
  · constructor
    · intro h
      by_contra hfits
      cases coll with
      | doubleTree parts =>
        obtain ⟨subs, hsubs, hnot⟩ := doubleTree_collide tags (lt_of_not_ge hfits)
        exact hnot (h subs hsubs)
      | twoDim chunkCount =>
        obtain ⟨subs, hsubs, hnot⟩ := twoDim_collide tags (lt_of_not_ge hfits)
        exact hnot (h subs hsubs)
    · intro hfits subs hsubs
      cases coll with
      | doubleTree parts => exact doubleTree_separate hfits hsubs
      | twoDim chunkCount => exact twoDim_separate hfits hsubs

/-- The tags of an MPI library with the least `MPI_TAG_UB`. -/
def mpiTags : AtlTag := ⟨⟨.mpi, 32, 65535⟩, ⟨rfl, by decide⟩, .mpi, rfl⟩

/-- Nine parts are too many for it. -/
theorem nine_parts_collide : ∃ subs, (ManyParts.doubleTree 9).Builds subs ∧ ¬TagsSeparate mpiTags subs :=
  doubleTree_collide mpiTags (by decide)

end OneCcl
