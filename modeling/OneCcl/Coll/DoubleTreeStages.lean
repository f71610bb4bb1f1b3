import OneCcl.Coll.DoubleTree

/-!
# The schedules of the two trees

The schedule of a double tree collective starts two others for every part: one for the part of the first half, one for
the part of the second. In which order is up to the rank. The schedules together are `doubleTreeStages`: they do not
disturb each other, since every part is a piece of `recv_buf` of its own (`partStart_ordered`), and a run of them comes to
the rounds of one tree after the other (`doubleTree_completes`).
-/

namespace OneCcl

open Async List Reduction Trees Parts

variable {o i k c r n cnt num cnt' : Nat} {buf : CclBuffer} {C : Nat → Links Nat} {t : BinaryTree Nat}
  {collType : DoubleTreeColl} {dtree : CclDoubleTree} {x : DoubleTreeLoop} {e e' : SchedEntry} {p : CclBuffer × Nat}

/-! ## The parts -/

/-- How long a part is: `parts` parts of the first half, and as many of the second. -/
def partCount (count parts o : Nat) : Nat :=
  if o < parts then evenSize (count / 2) parts o else evenSize (count - count / 2) parts (o - parts)

def partStart (count parts o : Nat) : Nat := sumTo (partCount count parts) o

section

variable (count : Nat) {parts : Nat}

theorem partStart_half (hparts : 0 < parts) : partStart count parts parts = count / 2 := by
  have hfirst : ∀ j < parts, partCount count parts j = evenSize (count / 2) parts j := fun j hj => if_pos hj
  rw [partStart, sumTo_congr hfirst, sumTo_evenSize_top _ hparts]

theorem partStart_top (hparts : 0 < parts) : partStart count parts (parts + parts) = count := by
  have hsecond : ∀ i, partCount count parts (parts + i) = evenSize (count - count / 2) parts i := by
    intro i
    rw [partCount, if_neg (by omega), Nat.add_sub_cancel_left]
  rw [partStart, sumTo_add, ← partStart, partStart_half count hparts,
    sumTo_congr fun i _ => hsecond i, sumTo_evenSize_top _ hparts]
  omega

variable (parts) in
theorem partStart_ordered {o' : Nat} (h : o < o') :
    partStart count parts o + partCount count parts o ≤ partStart count parts o' :=
  sumTo_ordered _ h

theorem partStart_add_le (hparts : 0 < parts) (h : o < parts + parts) :
    partStart count parts o + partCount count parts o ≤ count :=
  (partStart_ordered count parts h).trans ((partStart_top count hparts).le)

/-- **The parts tile the data**: every element is in one of them. -/
theorem parts_tile (hparts : 0 < parts) (hi : i < count) : ∃! o, o < parts + parts ∧
    partStart count parts o ≤ i ∧ i < partStart count parts o + partCount count parts o := by
  obtain ⟨o, ho, hlo, hhi⟩ := exists_sumTo (partCount count parts) (x := i) (k := parts + parts)
    (Nat.lt_of_lt_of_eq hi (partStart_top count hparts).symm)
  refine ⟨o, ⟨ho, hlo, hhi⟩, fun o' h' => ?_⟩
  rcases lt_trichotomy o' o with hlt | heq | hlt
  · have := partStart_ordered count parts hlt
    have : partStart count parts o ≤ i := hlo
    omega
  · exact heq
  · have := partStart_ordered count parts hlt
    have : i < partStart count parts o + partCount count parts o := hhi
    omega

end

/-! ## The stages -/

/-- Which of its two schedules a rank starts first. -/
def t1First (collType : DoubleTreeColl) (rank : Nat) : Bool :=
  match collType with
  | .bcast => true
  | .broadcast => true
  | .reduce => false
  | .allreduce => rank % 2 ≠ 0

theorem mem_pair_iff {parts : Nat} (hk : k < parts) :
    c ∈ [k + 1, parts + k + 1] ↔ 0 < c ∧ c < 1 + (parts + parts) ∧ (c - 1) % parts = k := by
  rw [mem_cons, mem_singleton]
  constructor
  · rintro (rfl | rfl)
    · exact ⟨Nat.succ_pos k, by omega, Nat.mod_eq_of_lt hk⟩
    · refine ⟨Nat.succ_pos _, by omega, ?_⟩
      rw [Nat.add_sub_cancel, Nat.add_mod_left, Nat.mod_eq_of_lt hk]
  · rintro ⟨hpos, hc, hmod⟩
    rcases lt_or_ge (c - 1) parts with h | h
    · rw [Nat.mod_eq_of_lt h] at hmod
      omega
    · rw [Nat.mod_eq_sub_mod h, Nat.mod_eq_of_lt (by omega)] at hmod
      omega

theorem treeRounds_good (h : RankTree C t n) : ∀ R ∈ treeRounds collType buf cnt num t, R.IsGood n := by
  have hlt : ∀ v ∈ labels t, v < n := fun v hv => (h.mem v).mp hv
  intro R hR
  cases collType with
  | bcast | broadcast => exact edges_good (downRounds_isEdge h.nodup) hlt R hR
  | reduce => exact edges_good (upRounds_isEdge h.nodup) hlt R hR
  | allreduce =>
    rcases mem_append.mp hR with hR | hR
    · exact edges_good (upRounds_isEdge h.nodup) hlt R hR
    · exact edges_good (downRounds_isEdge h.nodup) hlt R hR

/-- A collective over two trees, cut into parts: what the ranks pass, and the trees they are in. -/
structure TwoTrees where
  collType : DoubleTreeColl
  sendBuf : Nat → CclBuffer
  recvBuf : CclBuffer
  count : Nat
  parts : Nat
  n : Nat
  t1 : BinaryTree Nat
  t2 : BinaryTree Nat
  links1 : Nat → Links Nat
  links2 : Nat → Links Nat
  tree1 : RankTree links1 t1 n
  tree2 : RankTree links2 t2 n
  parts_pos : 0 < parts
  user : ∃ j, recvBuf.src = .user j

namespace TwoTrees

variable (D : TwoTrees)

/-- The tree of the schedule with number `c`. -/
def tree (c : Nat) : BinaryTree Nat := if c - 1 < D.parts then D.t1 else D.t2

def links (c : Nat) : Nat → Links Nat := if c - 1 < D.parts then D.links1 else D.links2

theorem rankTree (c : Nat) : RankTree (D.links c) (D.tree c) D.n := by
  unfold links tree
  split
  · exact D.tree1
  · exact D.tree2

/-- The part it works on. -/
def part (c : Nat) : CclBuffer := D.recvBuf + partStart D.count D.parts (c - 1)

def len (c : Nat) : Nat := partCount D.count D.parts (c - 1)

theorem part_src (c : Nat) : ∃ j, (D.part c).src = .user j := D.user

theorem part_ne_alloc (c num i : Nat) : (D.part c).src ≠ .alloc num i := by
  obtain ⟨j, hj⟩ := D.part_src c
  rw [hj]
  exact nofun

theorem part_ne_null (c : Nat) : (D.part c).src ≠ .null := by
  obtain ⟨j, hj⟩ := D.part_src c
  rw [hj]
  exact nofun

def rounds (c : Nat) : List SchedRound := treeRounds D.collType (D.part c) (D.len c) c (D.tree c)

/-- What is done before the parts. -/
def copy (r : Nat) : List EntryKind :=
  if D.collType ≠ .bcast then copyKinds D.sendBuf D.recvBuf D.count D.n r else []

/-- In which order a rank starts the two schedules of a part. -/
def order (r k : Nat) : List Nat :=
  if t1First D.collType r = true then [k + 1, D.parts + k + 1] else [D.parts + k + 1, k + 1]

theorem copy_good : KindsGood D.copy D.n := by
  unfold copy
  split
  · exact copyKinds_good D.sendBuf D.recvBuf D.count D.n
  · exact kindsGood_local (fun _ _ => rfl) (fun _ => Nat.zero_le _) fun _ _ hk => absurd hk not_mem_nil

theorem copy_local {k : EntryKind} (h : k ∈ D.copy r) : k.isLocal = true := by
  unfold copy copyKinds at h
  obtain ⟨-, h⟩ := mem_ite_nil_right.mp h
  split at h
  · rw [mem_singleton.mp h]
    rfl
  · cases h

/-- The stages of the collective. -/
def stages : Stages D.n (1 + (D.parts + D.parts)) where
  first := .ofKinds true D.copy
  count := D.parts
  stage c := (c - 1) % D.parts
  group k := [k + 1, D.parts + k + 1]
  order := D.order
  fence k := decide (k + 1 = D.parts)
  rounds := D.rounds
  first_roomy := SchedRound.IsGood.isRoomy (D.copy_good.isGood true)
  first_local r e he := D.copy_local (mem_entriesOf he)
  mem_group k hk c := mem_pair_iff hk
  nodup_group k hk := by simp; omega
  stage_lt c hpos hc := Nat.mod_lt _ D.parts_pos
  order_perm r k := by
    unfold order
    split
    · exact List.Perm.refl _
    · exact List.Perm.swap _ _ _
  small k := show 2 ≤ maxFlowCredits by decide
  rounds_roomy c R hR := (treeRounds_good (D.rankTree c) R hR).isRoomy
  pos := Nat.add_pos_left Nat.one_pos _

end TwoTrees

/-! ## What the builder leaves -/

theorem createSubsched_eq {x : ParentSched} {opId : Nat} {fill : Sched → Option Sched} {s : Sched}
    (h : fill (.new (opId + 1)) = some s) :
    x.createSubsched opId fill = some ⟨x.sched.create (.subsched (opId + 1)), x.children ++ [s]⟩ := by
  rw [ParentSched.createSubsched, h]
  rfl

theorem doubleTreeStep_eq {rank c1 c2 : Nat} {s1 s2 : Sched}
    (h1 : treeFill collType dtree.t1 x.t1WorkBuf c1 (.new (x.t1OpId + 1)) = some s1)
    (h2 : treeFill collType dtree.t2 x.t2WorkBuf c2 (.new (x.t2OpId + 1)) = some s2) :
    doubleTreeStep collType dtree rank c1 c2 x = some (if t1First collType rank = true then
      ⟨(x.sched.sched.create (.subsched (x.t1OpId + 1))).create (.subsched (x.t2OpId + 1)), x.sched.children ++ [s1] ++ [s2]⟩
    else
      ⟨(x.sched.sched.create (.subsched (x.t2OpId + 1))).create (.subsched (x.t1OpId + 1)),
        x.sched.children ++ [s2] ++ [s1]⟩) := by
  cases collType with
  | bcast | broadcast => exact (congrArg (· >>= _) (createSubsched_eq h1)).trans (createSubsched_eq h2)
  | reduce => exact (congrArg (· >>= _) (createSubsched_eq h2)).trans (createSubsched_eq h1)
  | allreduce =>
    unfold doubleTreeStep t1First
    by_cases hr : rank % 2 = 0
    · rw [if_pos hr, if_neg (by simpa using hr)]
      exact (congrArg (· >>= _) (createSubsched_eq h2)).trans (createSubsched_eq h1)
    · rw [if_neg hr, if_pos (by simpa using hr)]
      exact (congrArg (· >>= _) (createSubsched_eq h1)).trans (createSubsched_eq h2)

namespace TwoTrees

variable (D : TwoTrees)

/-- The schedule with a number, as the builder fills it. -/
def fill (dtree : CclDoubleTree) (c : Nat) : Option Sched :=
  treeFill D.collType (if c - 1 < D.parts then dtree.t1 else dtree.t2) (D.part c) (D.len c) (.new c)

/-- What a rank knows of the trees is its links. -/
def Knows (r : Nat) (dtree : CclDoubleTree) : Prop := dtree.t1.links = D.links1 r ∧ dtree.t2.links = D.links2 r

variable {D}

theorem fill_eq (hr : r < D.n) (hd : D.Knows r dtree) (c : Nat) :
    ∃ s, D.fill dtree c = some s ∧ s.num = c ∧ s.entries = (D.rounds c).flatMap (· r) := by
  have hlinks : (if c - 1 < D.parts then dtree.t1 else dtree.t2).links = D.links c r := by
    unfold links
    split
    · exact hd.1
    · exact hd.2
  exact treeFill_eq (D.rankTree c) (D.part_ne_null c) hr hlinks D.collType

variable (D) in
/-- The loop before part `k`: the buffers, the operation ids, the entries and the schedules so far. -/
structure LoopInv (r : Nat) (dtree : CclDoubleTree) (k : Nat) (x : DoubleTreeLoop) : Prop where
  buf1 : x.t1WorkBuf = D.part (k + 1)
  buf2 : x.t2WorkBuf = D.part (D.parts + k + 1)
  id1 : x.t1OpId = k
  id2 : x.t2OpId = D.parts + k
  entries : x.sched.sched.entries =
    entriesOf true (D.copy r) ++ (range k).flatMap fun j => entriesOf false ((D.order r j).map .subsched)
  filled : ∀ s ∈ x.sched.children, 0 < s.num ∧ D.fill dtree s.num = some s
  all : ∀ j < k, ∀ c ∈ [j + 1, D.parts + j + 1], ∃ s ∈ x.sched.children, s.num = c

/-- **A part of each half** keeps the invariant. -/
theorem LoopInv.step (hr : r < D.n) (hd : D.Knows r dtree) (hk : k < D.parts) (hx : D.LoopInv r dtree k x) :
    ∃ x', doubleTreeIter D.collType dtree r (D.count / 2) (D.count - D.count / 2) D.parts x k = some x' ∧
      D.LoopInv r dtree (k + 1) x' := by
  have hc1 : D.len (k + 1) = evenSize (D.count / 2) D.parts k := if_pos hk
  have hc2 : D.len (D.parts + k + 1) = evenSize (D.count - D.count / 2) D.parts k := by
    rw [len, Nat.add_sub_cancel, partCount, if_neg (by omega), Nat.add_sub_cancel_left]
  obtain ⟨s1, hs1, hnum1, -⟩ := fill_eq hr hd (k + 1)
  obtain ⟨s2, hs2, hnum2, -⟩ := fill_eq hr hd (D.parts + k + 1)
  have hf1 : treeFill D.collType dtree.t1 x.t1WorkBuf (evenSize (D.count / 2) D.parts k) (.new (x.t1OpId + 1)) =
      some s1 := by
    rw [hx.buf1, hx.id1, ← hc1, ← hs1, fill, Nat.add_sub_cancel, if_pos hk]
  have hf2 : treeFill D.collType dtree.t2 x.t2WorkBuf (evenSize (D.count - D.count / 2) D.parts k)
      (.new (x.t2OpId + 1)) = some s2 := by
    rw [hx.buf2, hx.id2, ← hc2, ← hs2, fill, Nat.add_sub_cancel, if_neg (by omega)]
  have hmem : ∀ s, s ∈ (if t1First D.collType r = true then (⟨(x.sched.sched.create (.subsched (x.t1OpId + 1))).create
      (.subsched (x.t2OpId + 1)), x.sched.children ++ [s1] ++ [s2]⟩ : ParentSched) else
        ⟨(x.sched.sched.create (.subsched (x.t2OpId + 1))).create (.subsched (x.t1OpId + 1)),
          x.sched.children ++ [s2] ++ [s1]⟩).children ↔ s ∈ x.sched.children ∨ s = s1 ∨ s = s2 := by
    intro s
    split
    · simp only [mem_append, mem_singleton, or_assoc]
    · simp only [mem_append, mem_singleton, or_assoc, or_comm]
  refine ⟨_, congrArg (· >>= _) (doubleTreeStep_eq hf1 hf2), ?_, ?_, ?_, ?_, ?_, ?_, ?_⟩
  · show x.t1WorkBuf + evenSize (D.count / 2) D.parts k = _
    rw [hx.buf1, part, CclBuffer.add_add, ← hc1]
    rfl
  · show x.t2WorkBuf + evenSize (D.count - D.count / 2) D.parts k = _
    rw [hx.buf2, part, CclBuffer.add_add, ← hc2]
    rfl
  · show x.t1OpId + 1 = _
    rw [hx.id1]
  · show x.t2OpId + 1 = _
    rw [hx.id2, Nat.add_assoc]
  · rw [range_succ, flatMap_append, ← append_assoc, ← hx.entries, hx.id1, hx.id2, flatMap_singleton, order]
    split <;> simp
  · intro s hs
    rcases (hmem s).mp hs with hs | rfl | rfl
    · exact hx.filled s hs
    · exact hnum1 ▸ ⟨Nat.succ_pos k, hs1⟩
    · exact hnum2 ▸ ⟨Nat.succ_pos _, hs2⟩
  · intro j hj c hc
    rcases (Nat.le_of_lt_succ hj).lt_or_eq with hlt | rfl
    · obtain ⟨s, hs, hnum⟩ := hx.all j hlt c hc
      exact ⟨s, (hmem s).mpr (.inl hs), hnum⟩
    · rcases mem_pair.mp hc with rfl | rfl
      · exact ⟨s1, (hmem s1).mpr (.inr (.inl rfl)), hnum1⟩
      · exact ⟨s2, (hmem s2).mpr (.inr (.inr rfl)), hnum2⟩

/-- **The builder leaves the schedules of the stages.** -/
theorem cclCollBuildDoubleTreeOp_builds (hr : r < D.n) (hd : D.Knows r dtree) {dtreePartitionCount : Option Nat}
    (hcount : dtreePartitionCount.getD 1 = D.parts) :
    ∃ s, cclCollBuildDoubleTreeOp D.collType (D.sendBuf r) D.recvBuf D.count dtree r dtreePartitionCount (.new 0) =
        some s ∧
      (s.get 0).entries = D.stages.first r ++ (range D.parts).flatMap (D.stages.starts r) ∧
      ∀ c, 0 < c → c < 1 + (D.parts + D.parts) → (s.get c).entries = (D.rounds c).flatMap (· r) := by
  have hcopy : (if D.collType ≠ .bcast then copyIn (D.sendBuf r) D.recvBuf D.count (.new 0) else .new 0).entries =
      entriesOf true (D.copy r) := by
    unfold copy
    split
    · exact copyIn_entries D.sendBuf D.recvBuf D.count hr (.new 0)
    · rfl
  have hinit : D.LoopInv r dtree 0
      ⟨⟨if D.collType ≠ .bcast then copyIn (D.sendBuf r) D.recvBuf D.count (.new 0) else .new 0, []⟩, D.recvBuf,
        D.recvBuf + D.count / 2, 0, D.parts⟩ := by
    refine ⟨rfl, ?_, rfl, rfl, ?_, forall_mem_nil _, fun j hj => absurd hj (Nat.not_lt_zero j)⟩
    · rw [part, Nat.add_sub_cancel, Nat.add_zero, partStart_half D.count D.parts_pos]
    · rw [hcopy]
      exact (append_nil _).symm
  obtain ⟨x, hx, hinv⟩ := foldlM_range (m := D.parts) hinit fun k hk x hx => hx.step hr hd hk
  refine ⟨⟨x.sched.sched.addBarrier, x.sched.children⟩, ?_, ?_, ?_⟩
  · rw [cclCollBuildDoubleTreeOp, hcount, if_neg D.parts_pos.ne', hx]
    rfl
  · -- the barrier at the end closes the last stage
    obtain ⟨q, hq⟩ : ∃ q, D.parts = q + 1 := ⟨D.parts - 1, by have := D.parts_pos; omega⟩
    have hrange : range D.parts = range q ++ [q] := by rw [hq, range_succ]
    have hentries := hinv.entries
    rw [hrange, flatMap_append, flatMap_singleton, ← append_assoc] at hentries
    have hstarts : ∀ j, D.stages.starts r j =
        entriesOf (decide (j + 1 = D.parts)) ((D.order r j).map .subsched) := fun _ => rfl
    have hopen : ∀ j ∈ range q, D.stages.starts r j = entriesOf false ((D.order r j).map .subsched) := by
      intro j hj
      have hne : j + 1 ≠ D.parts := by have := mem_range.mp hj; omega
      rw [hstarts, decide_eq_false hne]
    rw [ParentSched.get_zero, hrange, flatMap_append, flatMap_singleton, hstarts q, decide_eq_true hq.symm,
      flatMap_congr hopen, ← append_assoc]
    refine Sched.addBarrier_group hentries ?_
    unfold order
    split <;> exact cons_ne_nil _ _
  · intro c hpos hc
    obtain ⟨j, hj, hmem⟩ : ∃ j < D.parts, c ∈ [j + 1, D.parts + j + 1] :=
      ⟨(c - 1) % D.parts, Nat.mod_lt _ D.parts_pos, (mem_pair_iff (Nat.mod_lt _ D.parts_pos)).mpr ⟨hpos, hc, rfl⟩⟩
    obtain ⟨s, hs, rfl⟩ := hinv.all j hj c hmem
    obtain ⟨s', hs', -, hentries⟩ := fill_eq hr hd s.num
    obtain rfl := Option.some.inj (hs'.symm.trans (hinv.filled s hs).2)
    have hget : (ParentSched.mk x.sched.sched.addBarrier x.sched.children).get s'.num = s' :=
      ParentSched.get_child hs hpos fun y hy hnum => Option.some.inj ((hinv.filled y hy).2.symm.trans (hnum ▸ hs'))
    rw [hget, hentries]

end TwoTrees

/-! ## The schedules do not disturb each other -/

theorem treeRounds_touches (h : RankTree C t n)
    (he : e ∈ (treeRounds collType buf cnt num t).flatMap (· r)) (hp : p ∈ e.kind.reads ++ e.kind.writes) :
    p = (buf, cnt) ∨ ∃ i, p = (treeTmp cnt num i, cnt) := by
  have hedge : ∀ {src dst : Nat} {k : EntryKind} {b : Bool}, e ∈ edgeRound buf cnt src dst k b r →
      e.kind = .send buf cnt dst ∨ e.kind = k := by
    intro src dst k b he
    have he := mem_entriesOf he
    unfold edgeKinds at he
    split at he
    · exact .inl (mem_singleton.mp he)
    · split at he
      · exact .inr (mem_singleton.mp he)
      · cases he
  have hup : ∀ {fence}, e ∈ (upRounds buf cnt num fence t).flatMap (· r) →
      p = (buf, cnt) ∨ ∃ i, p = (treeTmp cnt num i, cnt) := by
    intro fence he
    obtain ⟨R, hR, he⟩ := mem_flatMap.mp he
    obtain ⟨c, v, i, b, -, -, -, rfl⟩ := mem_upRounds h.nodup hR
    rcases hedge he with hk | hk <;> rw [hk] at hp
    · exact .inl (mem_singleton.mp hp)
    · exact (mem_pair.mp hp).imp id fun h => ⟨i, h⟩
  have hdown : ∀ {fence}, e ∈ (downRounds buf cnt fence t).flatMap (· r) → p = (buf, cnt) := by
    intro fence he
    obtain ⟨R, hR, he⟩ := mem_flatMap.mp he
    obtain ⟨c, v, b, -, -, -, rfl⟩ := mem_downRounds h.nodup hR
    rcases hedge he with hk | hk <;> rw [hk] at hp <;> exact mem_singleton.mp hp
  cases collType with
  | bcast | broadcast => exact .inl (hdown he)
  | reduce => exact hup he
  | allreduce =>
    rw [treeRounds, flatMap_append] at he
    exact (mem_append.mp he).elim hup fun he => .inl (hdown he)

theorem treeTmp_apart_num {num' i' : Nat} (h : num ≠ num') :
    PieceApart (treeTmp cnt num i, cnt) (treeTmp cnt' num' i', cnt') := by
  by_cases hcnt : cnt = 0
  · exact .inr (.inr (.inr (.inl hcnt)))
  by_cases hcnt' : cnt' = 0
  · exact .inr (.inr (.inr (.inr hcnt')))
  · rw [treeTmp, treeTmp, if_neg hcnt, if_neg hcnt']
    exact .inl fun he => h (BufSrc.alloc.inj he).1

theorem treeTmp_apart_user (hbuf : ∃ j, buf.src = .user j) : PieceApart (treeTmp cnt num i, cnt) (buf, cnt') := by
  by_cases hcnt : cnt = 0
  · exact .inr (.inr (.inr (.inl hcnt)))
  · rw [treeTmp, if_neg hcnt]
    obtain ⟨j, hj⟩ := hbuf
    refine .inl fun he => ?_
    rw [hj] at he
    cases he

namespace TwoTrees

variable {D : TwoTrees}

theorem rounds_touches (he : e ∈ (D.rounds c).flatMap (· r)) (hp : p ∈ e.kind.reads ++ e.kind.writes) :
    p = (D.part c, D.len c) ∨ ∃ i, p = (treeTmp (D.len c) c i, D.len c) :=
  treeRounds_touches (D.rankTree c) he hp

/-- **The schedules of different parts are apart.** -/
theorem rounds_apart {c' : Nat} (hpos : 0 < c) (hc : c < 1 + (D.parts + D.parts)) (hpos' : 0 < c')
    (hc' : c' < 1 + (D.parts + D.parts)) (hne : c ≠ c') (he : e ∈ (D.rounds c).flatMap (· r))
    (he' : e' ∈ (D.rounds c').flatMap (· r)) : e.kind.Apart e'.kind := by
  have hpiece : PieceApart (D.part c, D.len c) (D.part c', D.len c') := by
    refine PieceApart.parts (.inl rfl) (partStart_add_le D.count D.parts_pos (show c - 1 < _ by omega))
      (partStart_add_le D.count D.parts_pos (show c' - 1 < _ by omega)) ?_
    rcases lt_or_ge (c - 1) (c' - 1) with h | h
    · exact .inl (partStart_ordered D.count D.parts h)
    · exact .inr (partStart_ordered D.count D.parts (show c' - 1 < c - 1 by omega))
  have hall : ∀ p ∈ e.kind.reads ++ e.kind.writes, ∀ q ∈ e'.kind.reads ++ e'.kind.writes, PieceApart p q := by
    intro p hp q hq
    rcases rounds_touches he hp with rfl | ⟨i, rfl⟩
    · rcases rounds_touches he' hq with rfl | ⟨j, rfl⟩
      · exact hpiece
      · exact (treeTmp_apart_user (D.part_src c)).symm
    · rcases rounds_touches he' hq with rfl | ⟨j, rfl⟩
      · exact treeTmp_apart_user (D.part_src c')
      · exact treeTmp_apart_num hne
  exact ⟨fun p hp q hq => hall p (mem_append_right _ hp) q hq,
    fun p hp q hq => hall p (mem_append_left _ hp) q (mem_append_right _ hq)⟩

/-- **The entries of one schedule** are settled: there is a barrier between them, they may run beside each other, or the
second one is the answer to the first. -/
theorem rounds_same {α : Type} (op : α → α → α) [Std.Commutative op] [Std.Associative op] {tag : Nat → Nat}
    (eager : Nat × Nat → Nat → Bool) {m : Nat} (htag : TagsDiffer m tag) (mem : Nat → Mem α)
    {sched : Nat → Nat → Sched} (hc : c < m)
    (hsched : ∀ r < D.n, (sched r c).entries = (D.rounds c).flatMap (· r)) {j : Nat} (hr : r < D.n) (hij : i < j)
    (he : (sched r c).entries[i]? = some e) (he' : (sched r c).entries[j]? = some e') :
    (schedsNet op D.n m tag eager sched).Settled mem ((r, c), i) ((r, c), j) := by
  have hbarrier : ∀ {b eb}, i ≤ b → b < j → (sched r c).entries[b]? = some eb → eb.barrier = true →
      (schedsNet op D.n m tag eager sched).Dep ((r, c), i) ((r, c), j) := fun hib hbj hb hbar =>
    .barrier hib hbj ((schedsNet_barrier op eager hr hc hb).trans hbar)
  unfold rounds at hsched
  by_cases hcoll : D.collType = .allreduce
  · rw [hcoll] at hsched
    have hspaced := allreduce_spaced (D.len c) (D.rankTree c) (D.part_ne_alloc c c) hr
    rw [← hsched r hr] at hspaced
    rcases hspaced i j e e' hij he he' with ⟨b, eb, hib, hbj, hb, hbar⟩ | hbeside | ⟨buf, cnt, v, hsend, hrecv⟩
    · exact .inl (hbarrier hib hbj hb hbar)
    · exact .inr (.inl (schedsNet_beside op eager hr hc he he' hbeside))
    · exact .inr (.inr (allreduce_answer op eager htag mem (D.rankTree c) hc hsched hr he he' hsend hrecv))
  · have hspaced := tree_spaced (D.len c) (D.rankTree c) (D.part_ne_alloc c c) hr hcoll
    rw [← hsched r hr] at hspaced
    rcases hspaced i j e e' hij he he' with ⟨b, eb, hib, hbj, hb, hbar⟩ | hbeside
    · exact .inl (hbarrier hib hbj hb hbar)
    · exact .inr (.inl (schedsNet_beside op eager hr hc he he' hbeside))

end TwoTrees

end OneCcl
