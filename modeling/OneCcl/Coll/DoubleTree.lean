import OneCcl.Coll.CopyIn
import OneCcl.Coll.TreeRounds
import OneCcl.Reduction.Parts
import OneCcl.Sched.Children
import OneCcl.Sched.Subscheds

/-!
# Collectives over two trees

`ccl_coll_build_double_tree_op`: broadcast, reduce and allreduce, with one half of the data over each of the two trees of
the communicator. Each half is cut into parts, and every part is a schedule of its own that goes over the tree; the
schedule of the collective starts them all.

In an allreduce a rank sends its part to its parent and receives the result into the same buffer, without a barrier in
between. That is safe because the parent answers: it cannot send before it has received, so what is received was read
before.
-/

namespace OneCcl

open Async List Reduction Trees Sched

variable {r i j c : Nat} {x : Links Nat} {k : EntryKind}

/-! ## The builder -/

/-- `ccl_coll_type`, as far as the double tree knows it. -/
inductive DoubleTreeColl where
  | bcast
  | broadcast
  | reduce
  | allreduce
  deriving DecidableEq, Repr

section

variable (tree : CclBinTree) (buffer : CclBuffer) (count : Nat)

/-- The end of `bcast_tree` and `reduce_bcast_tree`. -/
def sendChildren (sched : Sched) : Sched :=
  let sched := match tree.l with
    | some l => sched.create (.send buffer count l)
    | none => sched
  match tree.r with
  | some r => sched.create (.send buffer count r)
  | none => sched

/-- `bcast_tree`. -/
def bcastTree (sched : Sched) : Sched :=
  let sched := match tree.p with
    | some p => (sched.create (.recv buffer count p)).addBarrier
    | none => sched
  sendChildren tree buffer count sched

/-- The beginning of `reduce_tree` and `reduce_bcast_tree`. -/
def recvReduceChildren (sched : Sched) : Option Sched := do
  let sched ← match tree.l with
    | some l => sched.createRecvReduce buffer count l .empty .localBuf
    | none => some sched
  match tree.r with
  | some r => sched.createRecvReduce buffer count r .empty .localBuf
  | none => some sched

/-- The barrier of a rank that has children. -/
def barrierOfChildren (sched : Sched) : Sched :=
  if tree.l.isSome = true ∨ tree.r.isSome = true then sched.addBarrier else sched

/-- `reduce_tree`. -/
def reduceTree (sched : Sched) : Option Sched := do
  let sched ← recvReduceChildren tree buffer count sched
  match tree.p with
  | some p => return (barrierOfChildren tree sched).create (.send buffer count p)
  | none => return sched

/-- `reduce_bcast_tree`. -/
def reduceBcastTree (sched : Sched) : Option Sched := do
  let sched ← recvReduceChildren tree buffer count sched
  let sched := match tree.p with
    | some p => ((barrierOfChildren tree sched).create (.send buffer count p)).create (.recv buffer count p)
    | none => sched
  return sendChildren tree buffer count (barrierOfChildren tree sched)

end

/-- The variables of the loop over the parts. -/
structure DoubleTreeLoop where
  sched : ParentSched
  t1WorkBuf : CclBuffer
  t2WorkBuf : CclBuffer
  t1OpId : Nat
  t2OpId : Nat

/-- What the loop creates for one part of each half. -/
def doubleTreeStep (collType : DoubleTreeColl) (dtree : CclDoubleTree) (rank t1WorkCount t2WorkCount : Nat)
    (x : DoubleTreeLoop) : Option ParentSched :=
  match collType with
  | .bcast => do
    let sched ← x.sched.createSubsched x.t1OpId fun s => some (bcastTree dtree.t1 x.t1WorkBuf t1WorkCount s)
    sched.createSubsched x.t2OpId fun s => some (bcastTree dtree.t2 x.t2WorkBuf t2WorkCount s)
  | .broadcast => do
    let sched ← x.sched.createSubsched x.t1OpId fun s => some (bcastTree dtree.t1 x.t1WorkBuf t1WorkCount s)
    sched.createSubsched x.t2OpId fun s => some (bcastTree dtree.t2 x.t2WorkBuf t2WorkCount s)
  -- even and odd ranks do the same
  | .reduce => do
    let sched ← x.sched.createSubsched x.t2OpId (reduceTree dtree.t2 x.t2WorkBuf t2WorkCount)
    sched.createSubsched x.t1OpId (reduceTree dtree.t1 x.t1WorkBuf t1WorkCount)
  | .allreduce =>
    if rank % 2 = 0 then do
      let sched ← x.sched.createSubsched x.t2OpId (reduceBcastTree dtree.t2 x.t2WorkBuf t2WorkCount)
      sched.createSubsched x.t1OpId (reduceBcastTree dtree.t1 x.t1WorkBuf t1WorkCount)
    else do
      let sched ← x.sched.createSubsched x.t1OpId (reduceBcastTree dtree.t1 x.t1WorkBuf t1WorkCount)
      sched.createSubsched x.t2OpId (reduceBcastTree dtree.t2 x.t2WorkBuf t2WorkCount)

/-- One iteration of the loop over the parts. The first parts are slightly larger. -/
def doubleTreeIter (collType : DoubleTreeColl) (dtree : CclDoubleTree) (rank t1Count t2Count parts : Nat)
    (x : DoubleTreeLoop) (iter : Nat) : Option DoubleTreeLoop := do
  let t1WorkCount := if iter < t1Count % parts then t1Count / parts + 1 else t1Count / parts
  let t2WorkCount := if iter < t2Count % parts then t2Count / parts + 1 else t2Count / parts
  let sched ← doubleTreeStep collType dtree rank t1WorkCount t2WorkCount x
  return ⟨sched, x.t1WorkBuf + t1WorkCount, x.t2WorkBuf + t2WorkCount, x.t1OpId + 1, x.t2OpId + 1⟩

/-- `ccl_coll_build_double_tree_op`. The number of parts is `dtree_partition_count`, or one if that is not given; the
builder divides by it. -/
def cclCollBuildDoubleTreeOp (collType : DoubleTreeColl) (sendBuf recvBuf : CclBuffer) (count : Nat)
    (dtree : CclDoubleTree) (rank : Nat) (dtreePartitionCount : Option Nat) (sched : Sched) : Option ParentSched := do
  let sched := if collType ≠ .bcast then copyIn sendBuf recvBuf count sched else sched
  let t1Count := count / 2
  let t2Count := count - t1Count
  let parts := dtreePartitionCount.getD 1
  if parts = 0 then none
  let x ← (range parts).foldlM (doubleTreeIter collType dtree rank t1Count t2Count parts)
    ⟨⟨sched, []⟩, recvBuf, recvBuf + t1Count, 0, parts⟩
  return { x.sched with sched := x.sched.sched.addBarrier }

/-- The trees a collective goes over: those of the communicator, with the root moved where there is one. -/
def doubleTreeOf (commSize rank root : Nat) : CclDoubleTree :=
  if root = 0 then .new commSize rank else (CclDoubleTree.new commSize rank).copyWithNewRoot root

/-! ## What a rank does in a tree -/

section

variable {tree : CclBinTree} {buf : CclBuffer} {cnt num : Nat}

theorem createRecvReduce_tree (s : Sched) (hbuf : buf.src ≠ .null) (cnt src : Nat) :
    s.createRecvReduce buf cnt src .empty .localBuf =
      some ⟨s.num, s.entries ++ [⟨.recvReduce buf cnt src (treeTmp cnt s.num s.allocs) .localBuf, false⟩],
        s.allocs + if cnt = 0 then 0 else 1⟩ := by
  rcases Nat.eq_zero_or_pos cnt with rfl | hcnt
  · rw [createRecvReduce, if_pos (.inl ⟨rfl, hbuf⟩), if_neg fun h => Nat.lt_irrefl 0 h.2]
    rfl
  · rw [createRecvReduce_alloc s src hbuf hcnt, treeTmp, if_neg hcnt.ne', if_neg hcnt.ne']
    rfl

theorem treeTmp_allocs (cnt num : Nat) : treeTmp cnt num (if cnt = 0 then 0 else 1) = treeTmp cnt num 1 := by
  unfold treeTmp
  split <;> rfl

theorem sendChildren_entries (s : Sched) :
    (sendChildren tree buf cnt s).entries = s.entries ++ entriesOf false (childSends buf cnt tree.links) := by
  obtain ⟨commSize, rank, isMain, p, l, r⟩ := tree
  cases l <;> cases r <;> simp [sendChildren, childSends, CclBinTree.links]

theorem sendChildren_num (s : Sched) : (sendChildren tree buf cnt s).num = s.num := by
  obtain ⟨commSize, rank, isMain, p, l, r⟩ := tree
  cases l <;> cases r <;> rfl

theorem bcastTree_num : (bcastTree tree buf cnt (.new num)).num = num := by
  rw [bcastTree, sendChildren_num]
  cases tree.p <;> rfl

theorem bcastTree_entries : (bcastTree tree buf cnt (.new num)).entries =
    parentRecv buf cnt (fun _ _ => true) tree.links ++ entriesOf false (childSends buf cnt tree.links) := by
  rw [bcastTree, sendChildren_entries]
  congr 1
  unfold parentRecv CclBinTree.links
  cases tree.p <;> rfl

variable (tree cnt num) in
theorem recvReduceChildren_eq (hbuf : buf.src ≠ .null) : ∃ s, recvReduceChildren tree buf cnt (.new num) = some s ∧
    s.num = num ∧ s.entries = entriesOf false (childRecvs buf cnt num tree.links) := by
  obtain ⟨commSize, rank, isMain, p, l, r⟩ := tree
  cases l <;> cases r <;>
    simp [recvReduceChildren, createRecvReduce_tree _ hbuf, CclBinTree.links, childRecvs, new, treeTmp_allocs]

theorem childRecvs_eq_nil : childRecvs buf cnt num tree.links = [] ↔ ¬ (tree.l.isSome = true ∨ tree.r.isSome = true) := by
  obtain ⟨commSize, rank, isMain, p, l, r⟩ := tree
  cases l <;> cases r <;> simp [childRecvs, CclBinTree.links]

theorem barrierOfChildren_recvs {s : Sched} (h : s.entries = entriesOf false (childRecvs buf cnt num tree.links)) :
    (barrierOfChildren tree s).entries = entriesOf true (childRecvs buf cnt num tree.links) := by
  unfold barrierOfChildren
  split
  next hc =>
    have hne : childRecvs buf cnt num tree.links ≠ [] := fun hnil => childRecvs_eq_nil.mp hnil hc
    exact addBarrier_group (l := []) h hne
  next hc => rw [h, childRecvs_eq_nil.mpr hc, entriesOf_nil, entriesOf_nil]

theorem barrierOfChildren_num (s : Sched) : (barrierOfChildren tree s).num = s.num := by
  unfold barrierOfChildren
  split <;> rfl

theorem barrierOfChildren_create (s : Sched) (k : EntryKind) :
    (barrierOfChildren tree (s.create k)).entries = s.entries ++ [⟨k, tree.l.isSome || tree.r.isSome⟩] := by
  unfold barrierOfChildren
  split
  next h => rw [addBarrier_create_entries, Bool.or_eq_true _ _ |>.mpr h]
  next h => rw [create_entries, Bool.eq_false_iff.mpr fun hc => h (Bool.or_eq_true _ _ |>.mp hc)]

variable (tree cnt num) in
theorem reduceTree_eq (hbuf : buf.src ≠ .null) : ∃ s, reduceTree tree buf cnt (.new num) = some s ∧ s.num = num ∧
    s.entries = entriesOf tree.p.isSome (childRecvs buf cnt num tree.links) ++ parentSend buf cnt tree.links := by
  obtain ⟨s, hs, hnum, hentries⟩ := recvReduceChildren_eq tree cnt num hbuf
  rw [reduceTree, hs]
  show ∃ s', (match tree.p with
    | some p => some ((barrierOfChildren tree s).create (.send buf cnt p))
    | none => some s) = some s' ∧ _
  unfold parentSend CclBinTree.links
  cases tree.p with
  | none => exact ⟨s, rfl, hnum, hentries.trans (append_nil _).symm⟩
  | some p =>
    refine ⟨_, rfl, (barrierOfChildren_num s).trans hnum, ?_⟩
    rw [create_entries, barrierOfChildren_recvs hentries]
    rfl

/-- What `reduce_bcast_tree` leaves a rank with: the way up and the way down. -/
def upDown (buf : CclBuffer) (cnt num : Nat) (x : Links Nat) : List SchedEntry :=
  entriesOf true (childRecvs buf cnt num x) ++ (parentSend buf cnt x ++
    (parentRecv buf cnt (fun l r => l.isSome || r.isSome) x ++ entriesOf false (childSends buf cnt x)))

variable (tree cnt num) in
theorem reduceBcastTree_eq (hbuf : buf.src ≠ .null) : ∃ s, reduceBcastTree tree buf cnt (.new num) = some s ∧
    s.num = num ∧ s.entries = upDown buf cnt num tree.links := by
  obtain ⟨s, hs, hnum, hentries⟩ := recvReduceChildren_eq tree cnt num hbuf
  rw [reduceBcastTree, hs]
  refine ⟨_, rfl, ?_, ?_⟩
  · rw [sendChildren_num, barrierOfChildren_num, ← hnum]
    cases tree.p with
    | none => rfl
    | some p => exact barrierOfChildren_num s
  · rw [sendChildren_entries, upDown, ← append_assoc, ← append_assoc]
    congr 1
    unfold parentSend parentRecv
    cases hp : tree.p with
    | none =>
      rw [show tree.links.parent = none from hp]
      simpa using barrierOfChildren_recvs hentries
    | some p =>
      rw [show tree.links.parent = some p from hp]
      refine (barrierOfChildren_create ((barrierOfChildren tree s).create (.send buf cnt p)) (.recv buf cnt p)).trans ?_
      rw [create_entries, barrierOfChildren_recvs hentries]
      rfl

end

/-! ## The rounds of a part -/

def treeFill (collType : DoubleTreeColl) (tree : CclBinTree) (buf : CclBuffer) (cnt : Nat) : Sched → Option Sched :=
  match collType with
  | .bcast => fun s => some (bcastTree tree buf cnt s)
  | .broadcast => fun s => some (bcastTree tree buf cnt s)
  | .reduce => reduceTree tree buf cnt
  | .allreduce => reduceBcastTree tree buf cnt

def treeRounds (collType : DoubleTreeColl) (buf : CclBuffer) (cnt num : Nat) (t : BinaryTree Nat) : List SchedRound :=
  match collType with
  | .bcast => downRounds buf cnt (fun _ _ => true) t
  | .broadcast => downRounds buf cnt (fun _ _ => true) t
  | .reduce => upRounds buf cnt num false t
  | .allreduce => upRounds buf cnt num true t ++ downRounds buf cnt (fun l r => l.isSome || r.isSome) t

section

variable {buf : CclBuffer} {cnt num n : Nat} {C : Nat → Links Nat} {t : BinaryTree Nat}

/-- A whole tree, over the ranks of a communicator. -/
structure RankTree (C : Nat → Links Nat) (t : BinaryTree Nat) (n : Nat) : Prop where
  linked : Linked C none t
  nodup : (labels t).Nodup
  mem : ∀ v, v ∈ labels t ↔ v < n

theorem RankTree.parent_root (h : RankTree C t n) (hroot : root? t = some r) : (C r).parent = none :=
  h.linked.parent_root hroot

theorem RankTree.parent_isSome (h : RankTree C t n) (hr : r < n) (hroot : root? t ≠ some r) :
    (C r).parent.isSome = true := by
  obtain ⟨v, -, hv, -⟩ := h.linked.exists_parent ((h.mem r).mpr hr) hroot
  rw [hv]
  rfl

theorem RankTree.up (h : RankTree C t n) (hr : r < n) (fence : Bool) : (upRounds buf cnt num fence t).flatMap (· r) =
      entriesOf (fence || (C r).parent.isSome) (childRecvs buf cnt num (C r)) ++ parentSend buf cnt (C r) := by
  rw [up_entries h.linked h.nodup ((h.mem r).mpr hr), parentSend]
  by_cases hroot : root? t = some r
  · rw [if_pos hroot, if_pos hroot, h.parent_root hroot, Option.isSome_none, Bool.or_false]
    rfl
  · rw [if_neg hroot, if_neg hroot, h.parent_isSome hr hroot, Bool.or_true]

theorem RankTree.down (h : RankTree C t n) (hr : r < n) (fence : Option Nat → Option Nat → Bool) :
    (downRounds buf cnt fence t).flatMap (· r) =
      parentRecv buf cnt fence (C r) ++ entriesOf false (childSends buf cnt (C r)) := by
  rw [down_entries h.linked h.nodup ((h.mem r).mpr hr)]
  by_cases hroot : root? t = some r
  · rw [if_pos hroot, parentRecv, h.parent_root hroot]
    rfl
  · rw [if_neg hroot]

/-- **The schedule of a part is what the rank has in the rounds of the tree.** -/
theorem treeFill_eq (h : RankTree C t n) (hbuf : buf.src ≠ .null) {tree : CclBinTree} (hr : r < n)
    (htree : tree.links = C r) (collType : DoubleTreeColl) : ∃ s, treeFill collType tree buf cnt (.new num) = some s ∧
      s.num = num ∧ s.entries = (treeRounds collType buf cnt num t).flatMap (· r) := by
  have hparent : tree.p = (C r).parent := congrArg Links.parent htree
  cases collType with
  | bcast | broadcast => exact ⟨_, rfl, bcastTree_num, by rw [bcastTree_entries, treeRounds, h.down hr, htree]⟩
  | reduce =>
    obtain ⟨s, hs, hnum, he⟩ := reduceTree_eq tree cnt num hbuf
    exact ⟨s, hs, hnum, by rw [he, treeRounds, h.up hr, htree, hparent, Bool.false_or]⟩
  | allreduce =>
    obtain ⟨s, hs, hnum, he⟩ := reduceBcastTree_eq tree cnt num hbuf
    exact ⟨s, hs, hnum, by
      rw [he, treeRounds, flatMap_append, h.up hr, h.down hr, htree, Bool.true_or, append_assoc, upDown]⟩

/-! ### What may run beside what -/

theorem treeTmp_ne (h : i ≠ j) : PieceApart (treeTmp cnt num i, cnt) (treeTmp cnt num j, cnt) := by
  by_cases hcnt : cnt = 0
  · exact .inr (.inr (.inr (.inl hcnt)))
  · rw [treeTmp, treeTmp, if_neg hcnt, if_neg hcnt]
    exact .inl fun he => h (BufSrc.alloc.inj he).2

theorem childRecvs_beside (hbuf : ∀ i, buf.src ≠ .alloc num i) (x : Links Nat) :
    (childRecvs buf cnt num x).Pairwise EntryKind.Beside := by
  obtain ⟨parent, left, right⟩ := x
  cases left with
  | none => cases right <;> simp [childRecvs]
  | some l =>
    cases right with
    | none => simp [childRecvs]
    | some r =>
      refine pairwise_pair.mpr (.merge (treeTmp_ne Nat.zero_ne_one) ?_ ?_)
      · exact treeTmp_apart hbuf _
      · exact treeTmp_apart hbuf _

theorem mem_childRecvs (h : k ∈ childRecvs buf cnt num x) :
    ∃ c i, k = .recvReduce buf cnt c (treeTmp cnt num i) .localBuf := by
  rcases mem_append.mp h with h | h
  · obtain ⟨c, -, rfl⟩ := mem_map.mp h
    exact ⟨c, _, rfl⟩
  · obtain ⟨c, -, rfl⟩ := mem_map.mp h
    exact ⟨c, _, rfl⟩

theorem mem_childSends (h : k ∈ childSends buf cnt x) : ∃ c, k = .send buf cnt c := by
  rcases mem_append.mp h with h | h
  · obtain ⟨c, -, rfl⟩ := mem_map.mp h
    exact ⟨c, rfl⟩
  · obtain ⟨c, -, rfl⟩ := mem_map.mp h
    exact ⟨c, rfl⟩

theorem sends_beside (b b' : CclBuffer) (c d c' d' : Nat) : (EntryKind.send b c d).Beside (.send b' c' d') :=
  .apart ⟨forall_mem_nil _, fun _ _ _ hq => absurd hq not_mem_nil⟩

theorem childSends_beside (x : Links Nat) : (childSends buf cnt x).Pairwise EntryKind.Beside := by
  refine pairwise_of_forall_mem_list fun k hk k' hk' => ?_
  obtain ⟨c, rfl⟩ := mem_childSends hk
  obtain ⟨c', rfl⟩ := mem_childSends hk'
  exact sends_beside ..

section

variable {R : SchedEntry → SchedEntry → Prop} (hR : ∀ e e', e.kind.Beside e'.kind → R e e')

include hR in
theorem spaced_entriesOf {ks : List EntryKind} (h : ks.Pairwise EntryKind.Beside) (b : Bool) :
    Spaced R (entriesOf b ks) := by
  rw [← map_kind_entriesOf b ks, pairwise_map] at h
  exact .of_pairwise (h.imp fun {e e'} => hR e e')

theorem fenced_entriesOf (ks : List EntryKind) : Fenced (entriesOf true ks) :=
  Fenced.append_entriesOf (l := []) fun _ _ he => absurd he (by simp)

theorem spaced_parentSend (x : Links Nat) : Spaced R (parentSend buf cnt x) := by
  refine .of_pairwise ?_
  unfold parentSend
  cases x.parent with
  | none => exact .nil
  | some p => exact pairwise_singleton ..

theorem spaced_parentRecv (fence : Option Nat → Option Nat → Bool) (x : Links Nat) :
    Spaced R (parentRecv buf cnt fence x) := by
  refine .of_pairwise ?_
  unfold parentRecv
  cases x.parent with
  | none => exact .nil
  | some p => exact pairwise_singleton ..

include hR in
theorem spaced_down (fence : Option Nat → Option Nat → Bool) (x : Links Nat)
    (hfence : fence x.left x.right = true ∨ childSends buf cnt x = []) :
    Spaced R (parentRecv buf cnt fence x ++ entriesOf false (childSends buf cnt x)) := by
  refine (spaced_parentRecv fence x).append (spaced_entriesOf hR (childSends_beside x) false) ?_
  rcases hfence with h | h
  · left
    intro e he
    unfold parentRecv at he
    cases hp : x.parent with
    | none => rw [hp] at he; cases he
    | some p =>
      rw [hp] at he
      cases he
      exact h
  · right
    intro e _ e' he'
    rw [h] at he'
    cases he'

include hR in
theorem spaced_up (hbuf : ∀ i, buf.src ≠ .alloc num i) (x : Links Nat) :
    Spaced R (entriesOf x.parent.isSome (childRecvs buf cnt num x) ++ parentSend buf cnt x) := by
  refine (spaced_entriesOf hR (childRecvs_beside hbuf x) _).append (spaced_parentSend x) ?_
  unfold parentSend
  cases x.parent with
  | none => exact .inr fun e _ e' he' => absurd he' not_mem_nil
  | some p => exact .inl (fenced_entriesOf _)

end

variable (cnt) in
theorem tree_spaced (h : RankTree C t n) (hbuf : ∀ i, buf.src ≠ .alloc num i) (hr : r < n) {collType : DoubleTreeColl}
    (hcoll : collType ≠ .allreduce) :
    Spaced (fun e e' => e.kind.Beside e'.kind) ((treeRounds collType buf cnt num t).flatMap (· r)) := by
  cases collType with
  | bcast | broadcast =>
    rw [treeRounds, h.down hr]
    exact spaced_down (fun _ _ h => h) _ _ (.inl rfl)
  | reduce =>
    rw [treeRounds, h.up hr, Bool.false_or]
    exact spaced_up (fun _ _ h => h) hbuf _
  | allreduce => exact absurd rfl hcoll

/-! ### The answer of the parent -/

theorem allreduce_entries (h : RankTree C t n) (hr : r < n) :
    (treeRounds .allreduce buf cnt num t).flatMap (· r) = upDown buf cnt num (C r) := by
  rw [treeRounds, flatMap_append, h.up hr, h.down hr, Bool.true_or, append_assoc, upDown]

/-- Entries that may run beside each other, or a message to a rank and the answer to it. -/
def BesideOrAnswer (e e' : SchedEntry) : Prop :=
  e.kind.Beside e'.kind ∨ ∃ buf cnt v, e.kind = .send buf cnt v ∧ e'.kind = .recv buf cnt v

variable (cnt) in
/-- There and back there are barriers, or the entries may run beside each other, or the second one is the answer to the
first. -/
theorem allreduce_spaced (h : RankTree C t n) (hbuf : ∀ i, buf.src ≠ .alloc num i) (hr : r < n) :
    Spaced BesideOrAnswer ((treeRounds .allreduce buf cnt num t).flatMap (· r)) := by
  have hR : ∀ e e' : SchedEntry, e.kind.Beside e'.kind → BesideOrAnswer e e' := fun _ _ h => .inl h
  rw [allreduce_entries h hr, upDown]
  refine (spaced_entriesOf hR (childRecvs_beside hbuf _) _).append
    ((spaced_parentSend _).append (spaced_down hR _ _ ?_) (.inr fun e he e' he' => ?_)) (.inl (fenced_entriesOf _))
  · unfold childSends
    cases (C r).left <;> cases (C r).right <;> simp
  · obtain ⟨p, hp, rfl⟩ := mem_map.mp he
    rcases mem_append.mp he' with he' | he'
    · obtain ⟨p', hp', rfl⟩ := mem_map.mp he'
      cases (Option.mem_toList.mp hp).symm.trans (Option.mem_toList.mp hp')
      exact .inr ⟨buf, cnt, p, rfl, rfl⟩
    · obtain ⟨c, hc⟩ := mem_childSends (mem_entriesOf he')
      refine .inl ?_
      rw [hc]
      exact sends_beside ..

theorem allreduce_sentTo (x : Links Nat) :
    (upDown buf cnt num x).filterMap (fun e => e.kind.sentTo.map Prod.fst) = x.neighbours := by
  obtain ⟨parent, left, right⟩ := x
  cases parent <;> cases left <;> cases right <;> rfl

theorem allreduce_receivedFrom (x : Links Nat) :
    (upDown buf cnt num x).filterMap (fun e => e.kind.receivedFrom.map Prod.fst) =
      (x.left.toList ++ x.right.toList) ++ x.parent.toList := by
  obtain ⟨parent, left, right⟩ := x
  cases parent <;> cases left <;> cases right <;> rfl

/-- A rank reads what a child sends, and only behind a barrier it answers. -/
theorem allreduce_child (hc : x.left = some c ∨ x.right = some c) {l : List SchedEntry} (hl : l = upDown buf cnt num x) :
    ∃ k b j : Nat, ∃ ek eb ej : SchedEntry, l[k]? = some ek ∧ ek.kind.receivedFrom = some (c, cnt) ∧ k ≤ b ∧
      l[b]? = some eb ∧ eb.barrier = true ∧ b < j ∧ l[j]? = some ej ∧ ej.kind.sentTo = some (c, cnt) := by
  have hrecv : ∃ tmp, EntryKind.recvReduce buf cnt c tmp .localBuf ∈ childRecvs buf cnt num x := by
    rcases hc with hc | hc
    · exact ⟨_, mem_append_left _ (mem_map.mpr ⟨c, Option.mem_toList.mpr hc, rfl⟩)⟩
    · exact ⟨_, mem_append_right _ (mem_map.mpr ⟨c, Option.mem_toList.mpr hc, rfl⟩)⟩
  have hsend : EntryKind.send buf cnt c ∈ childSends buf cnt x := by
    rcases hc with hc | hc
    · exact mem_append_left _ (mem_map.mpr ⟨c, Option.mem_toList.mpr hc, rfl⟩)
    · exact mem_append_right _ (mem_map.mpr ⟨c, Option.mem_toList.mpr hc, rfl⟩)
  obtain ⟨tmp, hrecv⟩ := hrecv
  rw [← map_kind_entriesOf true (childRecvs buf cnt num x)] at hrecv
  rw [← map_kind_entriesOf false (childSends buf cnt x)] at hsend
  obtain ⟨ek, hek, hkind⟩ := mem_map.mp hrecv
  obtain ⟨ej, hej, hjkind⟩ := mem_map.mp hsend
  obtain ⟨k, hk⟩ := getElem?_of_mem hek
  obtain ⟨b, eb, hkb, hb, hbar⟩ := (fenced_entriesOf _).exists_last (lt_of_get hk)
  have hblt := lt_of_get hb
  obtain ⟨j, hj⟩ := getElem?_of_mem (mem_append_right (parentSend buf cnt x)
    (mem_append_right (parentRecv buf cnt (fun l r => l.isSome || r.isSome) x) hej))
  refine ⟨k, b, _ + j, ek, eb, ej, ?_, by rw [hkind]; rfl, hkb, ?_, hbar, Nat.lt_add_right j hblt, ?_,
    by rw [hjkind]; rfl⟩
  · rw [hl, upDown, getElem?_append_left (lt_of_get hk), hk]
  · rw [hl, upDown, getElem?_append_left hblt, hb]
  · rw [hl, upDown, getElem?_append_right (Nat.le_add_right ..), Nat.add_sub_cancel_left, hj]

/-- **The answer of the parent comes after the message was read.** -/
theorem allreduce_answer {α : Type} (op : α → α → α) {m : Nat} {tag : Nat → Nat} {sched : Nat → Nat → Sched}
    (eager : Nat × Nat → Nat → Bool) (htag : TagsDiffer m tag) (mem : Nat → Mem α)
    (h : RankTree C t n) (hc : c < m)
    (hsched : ∀ r < n, (sched r c).entries = (treeRounds .allreduce buf cnt num t).flatMap (· r)) (hr : r < n)
    {e e' : SchedEntry} (he : (sched r c).entries[i]? = some e) (he' : (sched r c).entries[j]? = some e')
    {b : CclBuffer} {k v : Nat} (hsend : e.kind = .send b k v) (hrecv : e'.kind = .recv b k v) :
    (schedsNet op n m tag eager sched).ReadFirst mem ((r, c), i) ((r, c), j) := by
  have hentries : ∀ r < n, (sched r c).entries = upDown buf cnt num (C r) := fun r hr =>
    (hsched r hr).trans (allreduce_entries h hr)
  have hnodup : ∀ r < n, (C r).neighbours.Nodup := fun r hr =>
    h.linked.nodup_neighbours h.nodup (fun w hw => absurd hw nofun) ((h.mem r).mpr hr)
  have hsent : ∀ r < n, ((sched r c).entries.filterMap fun e => e.kind.sentTo.map Prod.fst).Nodup := by
    intro r hr
    rw [hentries r hr, allreduce_sentTo]
    exact hnodup r hr
  have hreceived : ∀ r < n, ((sched r c).entries.filterMap fun e => e.kind.receivedFrom.map Prod.fst).Nodup := by
    intro r hr
    rw [hentries r hr, allreduce_receivedFrom]
    exact nodup_append_comm.mp (hnodup r hr)
  -- what is received without a reduction is from the parent
  have hparent : (C r).parent = some v := by
    have hmem := mem_of_getElem? he'
    rw [hentries r hr, upDown, mem_append, mem_append, mem_append] at hmem
    rcases hmem with hmem | hmem | hmem | hmem
    · obtain ⟨c, tmp, hk⟩ := mem_childRecvs (mem_entriesOf hmem)
      rw [hrecv] at hk
      cases hk
    · obtain ⟨p, -, rfl⟩ := mem_map.mp hmem
      cases hrecv
    · obtain ⟨p, hp, rfl⟩ := mem_map.mp hmem
      rw [← (EntryKind.recv.inj hrecv).2.2]
      exact Option.mem_toList.mp hp
    · obtain ⟨c, hk⟩ := mem_childSends (mem_entriesOf hmem)
      rw [hrecv] at hk
      cases hk
  have hroot : root? t ≠ some r := fun hroot => by
    rw [h.parent_root hroot] at hparent
    cases hparent
  obtain ⟨v', hv', hpar, hchild⟩ := h.linked.exists_parent ((h.mem r).mpr hr) hroot
  obtain rfl : v' = v := Option.some.inj (hpar.symm.trans hparent)
  have hv := (h.mem v').mp hv'
  obtain ⟨k', b', j', ek, eb, ej, hk, hkrecv, hkb, hb, hbar, hbj, hj, hjsend⟩ := allreduce_child hchild (hentries v' hv)
  exact readFirst_of_reply op eager htag mem hr hv hc (.of_nodup (hsent r hr) he (by rw [hsend]; rfl))
    (.of_nodup (hreceived v' hv) hk hkrecv) hkb hbj hb hbar (.of_nodup (hsent v' hv) hj hjsend)
    (.of_nodup (hreceived r hr) he' (by rw [hrecv]; rfl))

end

end OneCcl
