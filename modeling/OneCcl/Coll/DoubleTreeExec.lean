import OneCcl.Coll.DoubleTreeStages

/-!
# What the collectives over two trees compute

A part gets over its tree what the collective asks for (`treeRounds_exec`), and the parts leave each other alone, so the
whole buffer gets it (`double_tree_correct`).
-/

namespace OneCcl

open Async Reduction Trees List CclBinTree

variable {α : Type} (op : α → α → α)

/-! ## One part -/

/-- What a collective leaves of one element, the ranks having the values `x`. -/
def TreeResult (collType : DoubleTreeColl) (n root : Nat) (x y : Nat → α) : Prop :=
  match collType with
  | .bcast => ∀ r < n, y r = x root
  | .broadcast => ∀ r < n, y r = x root
  | .reduce => y root = reduceRange op n x
  | .allreduce => ∀ r < n, y r = reduceRange op n x

section

variable {buf : CclBuffer} {cnt num n : Nat} {C : Nat → Links Nat} {t : BinaryTree Nat}

theorem RankTree.toFinset (h : RankTree C t n) : (labels t).toFinset = Finset.range n := by
  ext v
  rw [mem_toFinset, Finset.mem_range, h.mem]

/-- **A part over its tree.** -/
theorem treeRounds_exec [Std.Commutative op] [Std.Associative op] (h : RankTree C t n) (collType : DoubleTreeColl)
    (hbuf : ∀ i, buf.src ≠ .alloc num i) {root : Nat} (hroot : root? t = some root) (σ : Nat → Mem α) {i : Nat}
    (hi : i < cnt) : TreeResult op collType n root (fun r => σ r (buf.at i))
      fun r => execRounds op (treeRounds collType buf cnt num t) σ r (buf.at i) := by
  have hlt : ∀ v ∈ labels t, v < n := fun v hv => (h.mem v).mp hv
  have hn : 0 < n := Nat.zero_lt_of_lt (hlt root (mem_labels_root hroot))
  have hdown : ∀ {fence} (σ : Nat → Mem α), ∀ r < n,
      execRounds op (downRounds buf cnt fence t) σ r (buf.at i) = σ root (buf.at i) := fun σ r hr =>
    down_exec op h.nodup hlt σ hroot ((h.mem r).mpr hr) hi
  have hup : ∀ fence, execRounds op (upRounds buf cnt num fence t) σ root (buf.at i) =
      reduceRange op n fun r => σ r (buf.at i) := by
    intro fence
    have hred := up_exec op hbuf h.nodup hlt fence σ hroot hi
    rw [h.toFinset] at hred
    exact hred.eq_reduceRange hn
  cases collType with
  | bcast | broadcast => exact hdown σ
  | reduce => exact hup false
  | allreduce =>
    intro r hr
    show execRounds op (upRounds buf cnt num true t ++ downRounds buf cnt _ t) σ r _ = _
    rw [execRounds_append, hdown _ r hr, hup]

theorem treeRounds_frame (h : RankTree C t n) (collType : DoubleTreeColl) {a : BufSrc × Nat} (ha : a ∉ region buf cnt)
    (hsrc : ∀ i, a.1 ≠ .alloc num i) (σ : Nat → Mem α) (r : Nat) :
    execRounds op (treeRounds collType buf cnt num t) σ r a = σ r a := by
  have hlt : ∀ v ∈ labels t, v < n := fun v hv => (h.mem v).mp hv
  cases collType with
  | bcast | broadcast => exact down_frame op h.nodup hlt ha σ
  | reduce => exact up_frame op h.nodup hlt ha hsrc σ
  | allreduce =>
    show execRounds op (upRounds buf cnt num true t ++ downRounds buf cnt _ t) σ r a = _
    rw [execRounds_append, down_frame op h.nodup hlt ha, up_frame op h.nodup hlt ha hsrc]

end

/-! ## All parts -/

variable {c root n : Nat}

theorem foldl_of_unique {f : (Nat → Mem α) → Nat → Nat → Mem α} {cs : List Nat} (hnodup : cs.Nodup) (hc : c ∈ cs)
    {A : Set (BufSrc × Nat)} (hkeep : ∀ c' ∈ cs, c' ≠ c → ∀ σ r, ∀ a ∈ A, f σ c' r a = σ r a) (σ : Nat → Mem α) :
    ∃ σ', (∀ r, ∀ a ∈ A, σ' r a = σ r a) ∧ ∀ r, ∀ a ∈ A, cs.foldl f σ r a = f σ' c r a := by
  have hframe : ∀ (l : List Nat), (∀ c' ∈ l, c' ∈ cs ∧ c' ≠ c) → ∀ (σ : Nat → Mem α) r, ∀ a ∈ A,
      l.foldl f σ r a = σ r a := by
    intro l hl
    induction l with
    | nil => exact fun σ r a _ => rfl
    | cons c' l ih =>
      intro σ r a ha
      obtain ⟨hmem, hne⟩ := hl c' mem_cons_self
      rw [foldl_cons, ih (fun c'' h => hl c'' (mem_cons_of_mem _ h)) _ r a ha, hkeep c' hmem hne σ r a ha]
  obtain ⟨A', B, rfl⟩ := append_of_mem hc
  have hnot := (nodup_cons.mp (nodup_middle.mp hnodup)).1
  refine ⟨A'.foldl f σ, hframe A' (fun c' h => ⟨mem_append_left _ h, fun he => hnot ?_⟩) σ, fun r a ha => ?_⟩
  · exact he ▸ mem_append_left _ h
  · rw [foldl_append, foldl_cons]
    refine hframe B (fun c' h => ⟨mem_append_right _ (mem_cons_of_mem _ h), fun he => hnot ?_⟩) _ r a ha
    exact he ▸ mem_append_right _ h

theorem TreeResult.congr [Std.Commutative op] [Std.Associative op] {collType : DoubleTreeColl}
    {x x' y : Nat → α} (h : TreeResult op collType n root x y) (hroot : root < n) (hx : ∀ r < n, x r = x' r) :
    TreeResult op collType n root x' y := by
  have hred : reduceRange op n x = reduceRange op n x' := reduceRange_congr (Nat.zero_lt_of_lt hroot) hx
  cases collType with
  | bcast | broadcast => exact fun r hr => (h r hr).trans (hx root hroot)
  | reduce => exact Eq.trans h hred
  | allreduce => exact fun r hr => (h r hr).trans hred

def treeInput (collType : DoubleTreeColl) (sendBuf : Nat → CclBuffer) (recvBuf : CclBuffer) (mem : Nat → Mem α)
    (i r : Nat) : α :=
  if collType = .bcast then mem r (recvBuf.at i) else mem r ((sendBuf r).at i)

namespace TwoTrees

variable {D : TwoTrees} {i : Nat}

theorem copy_exec {r : Nat} (hr : r < D.n) (hi : i < D.count) (mem : Nat → Mem α) :
    SchedRound.exec op (.ofKinds true D.copy) mem r (D.recvBuf.at i) =
      treeInput D.collType D.sendBuf D.recvBuf mem i r := by
  unfold treeInput
  by_cases h : D.collType = .bcast
  · rw [if_pos h, exec_idle op true mem (if_neg fun hne => hne h)]
  · rw [if_neg h]
    have hkinds : D.copy = copyKinds D.sendBuf D.recvBuf D.count D.n := funext fun r => if_pos h
    rw [hkinds, OneCcl.copy_exec op true mem hr hi]

theorem rounds_frame (hi : ¬ (partStart D.count D.parts (c - 1) ≤ i ∧ i < partStart D.count D.parts (c - 1) + D.len c))
    (σ : Nat → Mem α) (r : Nat) : execRounds op (D.rounds c) σ r (D.recvBuf.at i) = σ r (D.recvBuf.at i) :=
  treeRounds_frame op (D.rankTree c) D.collType (fun hmem => hi (at_mem_region_add.mp hmem))
    (D.part_ne_alloc c c) σ r

/-- **All parts over their trees.** -/
theorem stages_exec [Std.Commutative op] [Std.Associative op] (hroot : root < D.n) (hr1 : root? D.t1 = some root)
    (hr2 : root? D.t2 = some root) (mem : Nat → Mem α) (hi : i < D.count) :
    TreeResult op D.collType D.n root (treeInput D.collType D.sendBuf D.recvBuf mem i) fun r =>
      execTasks op D.stages.tasks mem r (D.recvBuf.at i) := by
  obtain ⟨o, ⟨ho, hlo, hhi⟩, hone⟩ := parts_tile D.count D.parts_pos hi
  have hkeep : ∀ c' ∈ (range D.parts).flatMap D.stages.group, c' ≠ o + 1 → ∀ (σ : Nat → Mem α) r,
      ∀ a ∈ ({D.recvBuf.at i} : Set (BufSrc × Nat)), execRounds op (D.rounds c') σ r a = σ r a := by
    intro c' hc' hne σ r a ha
    obtain ⟨hpos, hc⟩ := Stages.lt_of_mem_groups _ hc'
    rw [Set.mem_singleton_iff.mp ha]
    refine rounds_frame op (fun hin => hne ?_) σ r
    have := hone (c' - 1) ⟨by omega, hin⟩
    omega
  obtain ⟨σ, hσ, hexec⟩ := foldl_of_unique (f := fun σ c => execRounds op (D.rounds c) σ) D.stages.nodup_groups
    (Stages.mem_groups _ (Nat.succ_pos o) (by omega)) hkeep (SchedRound.exec op (.ofKinds true D.copy) mem)
  -- the part with the element, from what is there after the copy
  have hpart : TreeResult op D.collType D.n root (fun r => σ r (D.recvBuf.at i)) fun r =>
      execRounds op (D.rounds (o + 1)) σ r (D.recvBuf.at i) := by
    obtain ⟨j, rfl⟩ := Nat.exists_eq_add_of_le hlo
    have hj : j < D.len (o + 1) := Nat.lt_of_add_lt_add_left hhi
    have htop : root? (D.tree (o + 1)) = some root := by
      unfold tree
      split
      · exact hr1
      · exact hr2
    rw [← CclBuffer.add_at]
    exact treeRounds_exec op (D.rankTree (o + 1)) D.collType (D.part_ne_alloc (o + 1) (o + 1)) htop σ hj
  have heq : (fun r => execTasks op D.stages.tasks mem r (D.recvBuf.at i)) = fun r =>
      execRounds op (D.rounds (o + 1)) σ r (D.recvBuf.at i) := by
    funext r
    rw [Stages.exec_tasks]
    exact hexec r _ rfl
  rw [heq]
  refine hpart.congr op hroot fun r hr => ?_
  rw [hσ r _ rfl, copy_exec op hr hi]

end TwoTrees

/-! ## The collectives -/

/-- The root of the trees: an allreduce goes over the trees of the communicator as they are. -/
def treeRoot (collType : DoubleTreeColl) (root : Nat) : Nat := if collType = .allreduce then 0 else root

theorem exists_rankTree (isMain : Bool) (hroot : root < n) :
    ∃ t, root? t = some root ∧ RankTree (fun v => if root = 0 then (new n v isMain).links
      else ((new n v isMain).copyWithNewRoot root).links) t n := by
  by_cases h : root = 0
  · subst h
    obtain ⟨t, hr, hnodup, hmem, hlinked⟩ := exists_linkedTree_zero isMain hroot
    exact ⟨t, hr, by simpa using hlinked, hnodup, hmem⟩
  · obtain ⟨t, hr, hnodup, hmem, hlinked⟩ := exists_linkedTree isMain hroot
    exact ⟨t, hr, by simpa [h] using hlinked, hnodup, hmem⟩

theorem doubleTreeOf_t1 (n r root : Nat) : (doubleTreeOf n r root).t1.links =
    if root = 0 then (new n r true).links else ((new n r true).copyWithNewRoot root).links := by
  unfold doubleTreeOf
  split <;> rfl

theorem doubleTreeOf_t2 (n r root : Nat) : (doubleTreeOf n r root).t2.links =
    if root = 0 then (new n r false).links else ((new n r false).copyWithNewRoot root).links := by
  unfold doubleTreeOf
  split <;> rfl

/-- The schedule of part `o` works on its piece of `recv_buf`, and on buffers of its own. -/
def WorksOnParts (recvBuf : CclBuffer) (count parts n : Nat) (sched : Nat → ParentSched) : Prop :=
  ∀ r < n, ∀ o < parts + parts, ∀ e ∈ ((sched r).get (o + 1)).entries, ∀ p ∈ e.kind.reads ++ e.kind.writes,
    p = (recvBuf + partStart count parts o, partCount count parts o) ∨
      ∃ i, p = (treeTmp (partCount count parts o) (o + 1) i, partCount count parts o)

/-- **Collectives over two trees.** For any number of parts every run of the schedules completes: a broadcast leaves the
root's data everywhere, a reduce the reduction at the root, an allreduce the reduction everywhere. The parts tile the
buffer. For no parts the builder divides by zero and there are no schedules. -/
theorem double_tree_correct [Std.Commutative op] [Std.Associative op] (collType : DoubleTreeColl) {n root : Nat}
    (hroot : root < n) (sendBuf : Nat → CclBuffer) {recvBuf : CclBuffer} (hbuf : ∃ j, recvBuf.src = .user j) (count : Nat)
    (dtreePartitionCount : Option Nat) {parts : Nat} (hcount : dtreePartitionCount.getD 1 = parts) (tag : Nat → Nat)
    (htag : ∀ c < 1 + (parts + parts), ∀ c' < 1 + (parts + parts), tag c = tag c' → c = c')
    (eager : Nat × Nat → Nat → Bool) (mem : Nat → Mem α) : (0 < parts → ∃ sched : Nat → ParentSched,
      (∀ r < n, cclCollBuildDoubleTreeOp collType (sendBuf r) recvBuf count (doubleTreeOf n r (treeRoot collType root)) r
        dtreePartitionCount (.new 0) = some (sched r)) ∧
      ((schedsNet op n (1 + (parts + parts)) tag eager fun r c => (sched r).get c).Completes mem fun s => ∀ i < count,
        TreeResult op collType n root (treeInput collType sendBuf recvBuf mem i) fun r => s.mem r (recvBuf.at i)) ∧
      WorksOnParts recvBuf count parts n sched ∧
      ∀ i < count, ∃! o, o < parts + parts ∧ partStart count parts o ≤ i ∧
        i < partStart count parts o + partCount count parts o) ∧
    (parts = 0 → ∀ r < n, cclCollBuildDoubleTreeOp collType (sendBuf r) recvBuf count
      (doubleTreeOf n r (treeRoot collType root)) r dtreePartitionCount (.new 0) = none) := by
  refine ⟨fun hparts => ?_, fun hzero r _ => ?_⟩
  · have htree : treeRoot collType root < n := by
      unfold treeRoot
      split
      · exact Nat.zero_lt_of_lt hroot
      · exact hroot
    obtain ⟨t1, hr1, h1⟩ := exists_rankTree true htree
    obtain ⟨t2, hr2, h2⟩ := exists_rankTree false htree
    let D : TwoTrees := ⟨collType, sendBuf, recvBuf, count, parts, n, t1, t2, _, _, h1, h2, hparts, hbuf⟩
    have hbuild := fun r (hr : r < D.n) => TwoTrees.cclCollBuildDoubleTreeOp_builds (D := D) hr
      ⟨doubleTreeOf_t1 n r _, doubleTreeOf_t2 n r _⟩ hcount
    choose! sched hsched using hbuild
    have hbuilds : D.stages.Builds fun r c => (sched r).get c :=
      ⟨fun r hr => (hsched r hr).2.1, fun r hr c hpos hc => (hsched r hr).2.2 c hpos hc⟩
    refine ⟨sched, fun r hr => (hsched r hr).1, ?_, ?_, fun i hi => parts_tile count hparts hi⟩
    · refine (hbuilds.completes op eager htag mem ?_ ?_).imp fun s hs i hi => ?_
      · intro r hr c hpos hc i j e e' hij he he'
        exact TwoTrees.rounds_same op eager htag mem hc (fun r hr => hbuilds.child r hr c hpos hc) hr hij he he'
      · intro r hr c c' hpos hc hpos' hc' hne e he e' he'
        rw [hbuilds.child r hr c hpos hc] at he
        rw [hbuilds.child r hr c' hpos' hc'] at he'
        exact TwoTrees.rounds_apart hpos hc hpos' hc' hne he he'
      · have hres : TreeResult op collType n (treeRoot collType root) (treeInput collType sendBuf recvBuf mem i) _ :=
          TwoTrees.stages_exec (D := D) op htree hr1 hr2 mem hi
        have hmem : (fun r => s.mem r (recvBuf.at i)) = fun r => execTasks op D.stages.tasks mem r (recvBuf.at i) :=
          funext fun r => congrFun (hs r) _
        rw [hmem]
        -- only an allreduce has other trees, and it asks for no root
        cases collType with
        | allreduce => exact hres
        | _ => exact hres
    · intro r hr o ho e he p hp
      have hlt : o + 1 < 1 + (D.parts + D.parts) := Nat.add_comm o 1 ▸ Nat.add_lt_add_left ho 1
      rw [(hsched r hr).2.2 (o + 1) (Nat.succ_pos o) hlt] at he
      exact TwoTrees.rounds_touches he hp
  · rw [cclCollBuildDoubleTreeOp, hcount, if_pos hzero]
    rfl

/-- Five elements in two parts for each tree, reduced at rank `2` of three ranks. -/
theorem double_tree_three : ∃ sched : Nat → ParentSched,
    (∀ r < 3, cclCollBuildDoubleTreeOp .reduce ⟨.user 0, 0⟩ ⟨.user 1, 0⟩ 5 (doubleTreeOf 3 r 2) r (some 2) (.new 0) =
      some (sched r)) ∧
    (schedsNet (· + ·) 3 5 id (fun _ _ => false) fun r c => (sched r).get c).Completes (fun r _ => r + 1) fun s =>
      ∀ i < 5, s.mem 2 (.user 1, i) = 6 := by
  have htag : ∀ c < 1 + (2 + 2), ∀ c' < 1 + (2 + 2), id c = id c' → c = c' := fun _ _ _ _ h => h
  have hbuf : ∃ j, (⟨.user 1, 0⟩ : CclBuffer).src = .user j := ⟨1, rfl⟩
  obtain ⟨sched, hsched, hrun, -⟩ := (double_tree_correct (α := Nat) (· + ·) .reduce (show 2 < 3 by decide)
    (fun _ => ⟨.user 0, 0⟩) hbuf 5 (some 2) rfl id htag (fun _ _ => false) fun r _ => r + 1).1 (by decide)
  refine ⟨sched, hsched, hrun.imp fun s hs i hi => ?_⟩
  have h : s.mem 2 (.user 1, 0 + i) = 6 := hs i hi
  rwa [Nat.zero_add] at h

end OneCcl
