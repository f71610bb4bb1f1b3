import OneCcl.Comm.Tree
import OneCcl.Reduction.Over
import OneCcl.Sched.Groups

/-!
# Messages along the edges of a tree

A collective over a tree of ranks: up, every rank reduces what its children have into its own buffer and sends the
result to its parent; down, every rank passes on what it got from its parent. Here the messages are rounds of one edge
each, in the order of a walk over the tree: `upRounds` from the leaves, `downRounds` from the root.

What a rank does in these rounds it knows from its own links (`up_entries`, `down_entries`), and what the rounds leave is
read off the tree: the reduction of the subtree at its root (`up_exec`), and the root's data everywhere (`down_exec`).
-/

namespace OneCcl

open Async List Reduction Trees SchedRound

variable {r n v i c q j : Nat} {b : Bool} {t : BinaryTree Nat} {C : Nat → Links Nat} {par : Option Nat}
  {fence : Option Nat → Option Nat → Bool} {R : SchedRound} {a : BufSrc × Nat}

/-! ## One edge -/

section

variable (buf : CclBuffer) (cnt : Nat)

/-- One message, and what the receiver does with it. -/
def edgeKinds (src dst : Nat) (k : EntryKind) (r : Nat) : List EntryKind :=
  if r = src then [.send buf cnt dst] else if r = dst then [k] else []

/-- The round of one edge, with or without a barrier behind the receive. -/
def edgeRound (src dst : Nat) (k : EntryKind) (b : Bool) : SchedRound :=
  .ofKindsAt (fun r => decide (r = dst) && b) (edgeKinds buf cnt src dst k)

variable {buf cnt} {src dst : Nat} {k : EntryKind}

theorem edgeKinds_src : edgeKinds buf cnt src dst k src = [.send buf cnt dst] := if_pos rfl

theorem edgeKinds_dst (hne : src ≠ dst) : edgeKinds buf cnt src dst k dst = [k] := (if_neg hne.symm).trans (if_pos rfl)

theorem edgeKinds_other (hs : r ≠ src) (hd : r ≠ dst) : edgeKinds buf cnt src dst k r = [] :=
  (if_neg hs).trans (if_neg hd)

theorem edgeKinds_good (hs : src < n) (hd : dst < n) (hne : src ≠ dst) (hk : k.receivedFrom = some (src, cnt)) :
    KindsGood (edgeKinds buf cnt src dst k) n := by
  have heq : edgeKinds buf cnt src dst k = fun r => if r = src ∨ r = dst then
      if r = src then [.send buf cnt dst] else [k] else [] := by
    funext r
    unfold edgeKinds
    split_ifs <;> simp_all
  rw [heq]
  exact kindsGood_pairs (fun r hr => by omega) (fun _ => hk) fun s d => by omega

theorem edgeRound_src (b : Bool) (hne : src ≠ dst) : edgeRound buf cnt src dst k b src = [⟨.send buf cnt dst, false⟩] := by
  show entriesOf (decide (src = dst) && b) (edgeKinds buf cnt src dst k src) = _
  rw [edgeKinds_src, decide_eq_false hne]
  rfl

theorem edgeRound_dst (b : Bool) (hne : src ≠ dst) : edgeRound buf cnt src dst k b dst = [⟨k, b⟩] := by
  show entriesOf (decide (dst = dst) && b) (edgeKinds buf cnt src dst k dst) = _
  rw [edgeKinds_dst hne, decide_eq_true rfl]
  rfl

theorem edgeRound_other (b : Bool) (hs : r ≠ src) (hd : r ≠ dst) : edgeRound buf cnt src dst k b r = [] := by
  show entriesOf _ (edgeKinds buf cnt src dst k r) = _
  rw [edgeKinds_other hs hd]
  rfl

variable {α : Type} (op : α → α → α) (b : Bool) (σ : Nat → Mem α)

theorem edge_exec_other (hd : r ≠ dst) : (edgeRound buf cnt src dst k b).exec op σ r = σ r := by
  rw [edgeRound, exec_barrier op _ false]
  by_cases hs : r = src
  · subst hs
    exact exec_send op false σ edgeKinds_src
  · exact exec_idle op false σ (edgeKinds_other hs hd)

theorem edge_exec_recv (hs : src < n) (hd : dst < n) (hne : src ≠ dst) :
    (edgeRound buf cnt src dst (.recv buf cnt src) b).exec op σ dst = store buf (load buf cnt (σ src)) (σ dst) := by
  rw [edgeRound, exec_barrier op _ false]
  refine exec_recv op false σ (edgeKinds_good hs hd hne rfl) (edgeKinds_dst hne) ?_
  rw [edgeKinds_src]
  exact mem_singleton.mpr rfl

theorem edge_exec_recvReduce {commBuf : CclBuffer} (hs : src < n) (hd : dst < n) (hne : src ≠ dst) :
    (edgeRound buf cnt src dst (.recvReduce buf cnt src commBuf .localBuf) b).exec op σ dst =
      compReduce op commBuf cnt buf (store commBuf (load buf cnt (σ src)) (σ dst)) := by
  rw [edgeRound, exec_barrier op _ false]
  refine exec_recvReduce op false σ (edgeKinds_good hs hd hne rfl) (edgeKinds_dst hne) ?_
  rw [edgeKinds_src]
  exact mem_singleton.mpr rfl

end

theorem execRounds_frame {α : Type} (op : α → α → α) {Rs : List SchedRound}
    (h : ∀ R ∈ Rs, ∀ σ : Nat → Mem α, R.exec op σ r a = σ r a) (σ : Nat → Mem α) : execRounds op Rs σ r a = σ r a := by
  induction Rs generalizing σ with
  | nil => rfl
  | cons R Rs ih =>
    rw [execRounds, ih fun R' h' => h R' (mem_cons_of_mem _ h'), h R mem_cons_self]

/-! ## Up and down -/

section

variable (buf : CclBuffer) (cnt num : Nat)

/-- Where a schedule receives what it reduces: its `i`-th allocation, and nowhere when there is nothing to receive. -/
def treeTmp (i : Nat) : CclBuffer := if cnt = 0 then .empty else ⟨.alloc num i, 0⟩

/-- The edge from the root of a subtree up to `v`, received with the `i`-th allocation. -/
def upEdge (v i : Nat) (b : Bool) (t : BinaryTree Nat) : List SchedRound :=
  (root? t).toList.map fun c => edgeRound buf cnt c v (.recvReduce buf cnt c (treeTmp cnt num i) .localBuf) b

/-- A tree from its leaves up to its root; `fence` says whether there is a barrier behind the root's receives. -/
def upRounds : Bool → BinaryTree Nat → List SchedRound
  | _, .nil => []
  | fence, .node v l r =>
    upRounds true l ++ upEdge buf cnt num v 0 (fence && (root? r).isNone) l ++
      (upRounds true r ++ upEdge buf cnt num v (root? l).toList.length fence r)

/-- The edge from `v` down to the root of a subtree; whether there is a barrier behind the receive is told by the
children of the receiver. -/
def downEdge (fence : Option Nat → Option Nat → Bool) (v : Nat) : BinaryTree Nat → List SchedRound
  | .nil => []
  | .node c l r => [edgeRound buf cnt v c (.recv buf cnt v) (fence (root? l) (root? r))]

/-- A tree from its root down to its leaves. -/
def downRounds (fence : Option Nat → Option Nat → Bool) : BinaryTree Nat → List SchedRound
  | .nil => []
  | .node v l r => downEdge buf cnt fence v l ++ downRounds fence l ++ (downEdge buf cnt fence v r ++ downRounds fence r)

/-- What a rank receives from its children. -/
def childRecvs (x : Links Nat) : List EntryKind :=
  x.left.toList.map (fun c => .recvReduce buf cnt c (treeTmp cnt num 0) .localBuf) ++
    x.right.toList.map fun c => .recvReduce buf cnt c (treeTmp cnt num x.left.toList.length) .localBuf

/-- What it sends to its parent. -/
def parentSend (x : Links Nat) : List SchedEntry := x.parent.toList.map (⟨.send buf cnt ·, false⟩)

/-- What it receives from its parent, with a barrier behind it or not. -/
def parentRecv (fence : Option Nat → Option Nat → Bool) (x : Links Nat) : List SchedEntry :=
  x.parent.toList.map fun v => ⟨.recv buf cnt v, fence x.left x.right⟩

def childSends (x : Links Nat) : List EntryKind :=
  x.left.toList.map (.send buf cnt ·) ++ x.right.toList.map (.send buf cnt ·)

variable {buf cnt num}

/-! ### The edges -/

theorem mem_upEdge (h : R ∈ upEdge buf cnt num v i b t) :
    ∃ c, root? t = some c ∧ R = edgeRound buf cnt c v (.recvReduce buf cnt c (treeTmp cnt num i) .localBuf) b := by
  obtain ⟨c, hc, rfl⟩ := mem_map.mp h
  exact ⟨c, Option.mem_toList.mp hc, rfl⟩

theorem mem_upRounds (hnodup : (labels t).Nodup) {fence : Bool} (h : R ∈ upRounds buf cnt num fence t) :
    ∃ c v i b, c ∈ labels t ∧ v ∈ labels t ∧ c ≠ v ∧
      R = edgeRound buf cnt c v (.recvReduce buf cnt c (treeTmp cnt num i) .localBuf) b := by
  induction t generalizing fence with
  | nil => cases h
  | node v l r hl hr =>
    obtain ⟨hnl, hnr, hvl, hvr, -⟩ := nodup_labels_node.mp hnodup
    simp only [upRounds, mem_append] at h
    rcases h with (h | h) | h | h
    · obtain ⟨c, w, i, b, hc, hw, hne, rfl⟩ := hl hnl h
      exact ⟨c, w, i, b, mem_left hc, mem_left hw, hne, rfl⟩
    · obtain ⟨c, hc, rfl⟩ := mem_upEdge h
      have hmem := mem_labels_root hc
      exact ⟨c, v, _, _, mem_left hmem, mem_self,
        fun he => hvl (he ▸ hmem), rfl⟩
    · obtain ⟨c, w, i, b, hc, hw, hne, rfl⟩ := hr hnr h
      exact ⟨c, w, i, b, mem_right hc, mem_right hw, hne, rfl⟩
    · obtain ⟨c, hc, rfl⟩ := mem_upEdge h
      have hmem := mem_labels_root hc
      exact ⟨c, v, _, _, mem_right hmem, mem_self,
        fun he => hvr (he ▸ hmem), rfl⟩

theorem mem_downEdge (h : R ∈ downEdge buf cnt fence v t) :
    ∃ c b, root? t = some c ∧ R = edgeRound buf cnt v c (.recv buf cnt v) b := by
  cases t with
  | nil => cases h
  | node c l r => exact ⟨c, _, rfl, mem_singleton.mp h⟩

theorem mem_downRounds (hnodup : (labels t).Nodup) (h : R ∈ downRounds buf cnt fence t) :
    ∃ v c b, v ∈ labels t ∧ c ∈ labels t ∧ v ≠ c ∧
      R = edgeRound buf cnt v c (.recv buf cnt v) b := by
  induction t with
  | nil => cases h
  | node v l r hl hr =>
    obtain ⟨hnl, hnr, hvl, hvr, -⟩ := nodup_labels_node.mp hnodup
    simp only [downRounds, mem_append] at h
    rcases h with (h | h) | h | h
    · obtain ⟨c, b, hc, rfl⟩ := mem_downEdge h
      have hmem := mem_labels_root hc
      exact ⟨v, c, b, mem_self, mem_left hmem, fun he => hvl (he ▸ hmem), rfl⟩
    · obtain ⟨w, c, b, hw, hc, hne, rfl⟩ := hl hnl h
      exact ⟨w, c, b, mem_left hw, mem_left hc, hne, rfl⟩
    · obtain ⟨c, b, hc, rfl⟩ := mem_downEdge h
      have hmem := mem_labels_root hc
      exact ⟨v, c, b, mem_self, mem_right hmem, fun he => hvr (he ▸ hmem), rfl⟩
    · obtain ⟨w, c, b, hw, hc, hne, rfl⟩ := hr hnr h
      exact ⟨w, c, b, mem_right hw, mem_right hc, hne, rfl⟩

variable {S : List Nat} {Rs : List SchedRound}

variable (buf cnt) in
/-- The round of an edge between two of the ranks `S`. -/
def IsEdge (S : List Nat) (R : SchedRound) : Prop :=
  ∃ src dst k b, src ∈ S ∧ dst ∈ S ∧ src ≠ dst ∧ k.receivedFrom = some (src, cnt) ∧ R = edgeRound buf cnt src dst k b

theorem upRounds_isEdge (hnodup : (labels t).Nodup) {fence : Bool} :
    ∀ R ∈ upRounds buf cnt num fence t, IsEdge buf cnt (labels t) R := by
  intro R hR
  obtain ⟨c, v, i, b, hc, hv, hne, rfl⟩ := mem_upRounds hnodup hR
  exact ⟨c, v, _, b, hc, hv, hne, rfl, rfl⟩

theorem downRounds_isEdge (hnodup : (labels t).Nodup) :
    ∀ R ∈ downRounds buf cnt fence t, IsEdge buf cnt (labels t) R := by
  intro R hR
  obtain ⟨v, c, b, hv, hc, hne, rfl⟩ := mem_downRounds hnodup hR
  exact ⟨v, c, _, b, hv, hc, hne, rfl, rfl⟩

theorem edges_good (h : ∀ R ∈ Rs, IsEdge buf cnt S R) (hlt : ∀ v ∈ S, v < n) : ∀ R ∈ Rs, R.IsGood n := by
  intro R hR
  obtain ⟨src, dst, k, b, hs, hd, hne, hk, rfl⟩ := h R hR
  exact ⟨_, _, (edgeKinds_good (hlt src hs) (hlt dst hd) hne hk).good_at _⟩

/-- A rank out of `S` does nothing in them. -/
theorem edges_other (h : ∀ R ∈ Rs, IsEdge buf cnt S R) (hr : r ∉ S) : Rs.flatMap (· r) = [] := by
  refine flatMap_eq_nil_iff.mpr fun R hR => ?_
  obtain ⟨src, dst, k, b, hs, hd, -, -, rfl⟩ := h R hR
  exact edgeRound_other b (fun he => hr (he ▸ hs)) fun he => hr (he ▸ hd)

theorem edges_exec_other {α : Type} (op : α → α → α) (h : ∀ R ∈ Rs, IsEdge buf cnt S R) (hr : r ∉ S)
    (σ : Nat → Mem α) : execRounds op Rs σ r = σ r := by
  refine funext fun a => execRounds_frame op (fun R hR σ => ?_) σ
  obtain ⟨src, dst, k, b, -, hd, -, -, rfl⟩ := h R hR
  have hne : r ≠ dst := fun he => hr (he ▸ hd)
  rw [edge_exec_other op b σ hne]

/-- A rank of one subtree is neither the root nor in the other subtree. -/
theorem left_only {l r' : BinaryTree Nat} (h : (labels (.node v l r')).Nodup) (hr : r ∈ labels l) :
    r ≠ v ∧ some v ≠ some r ∧ r ∉ labels r' := by
  obtain ⟨-, -, hvl, -, hdisj⟩ := nodup_labels_node.mp h
  have hne : r ≠ v := fun h => hvl (h ▸ hr)
  exact ⟨hne, fun h => hne (Option.some.inj h).symm, hdisj r hr⟩

theorem right_only {l r' : BinaryTree Nat} (h : (labels (.node v l r')).Nodup) (hr : r ∈ labels r') :
    r ≠ v ∧ some v ≠ some r ∧ r ∉ labels l := by
  obtain ⟨-, -, -, hvr, hdisj⟩ := nodup_labels_node.mp h
  have hne : r ≠ v := fun h => hvr (h ▸ hr)
  exact ⟨hne, fun h => hne (Option.some.inj h).symm, fun h => hdisj r h hr⟩

/-! ### What a rank does on the way up -/

theorem upEdge_other (hv : r ≠ v) (ht : root? t ≠ some r) : (upEdge buf cnt num v i b t).flatMap (· r) = [] := by
  unfold upEdge
  cases h : root? t with
  | none => rfl
  | some c =>
    rw [h] at ht
    exact (append_nil _).trans (edgeRound_other b (fun hc => ht (congrArg some hc.symm)) hv)

theorem upEdge_parent (ht : root? t ≠ some v) :
    (upEdge buf cnt num v i b t).flatMap (· v) = entriesOf b ((root? t).toList.map fun c =>
      .recvReduce buf cnt c (treeTmp cnt num i) .localBuf) := by
  unfold upEdge
  cases h : root? t with
  | none => rfl
  | some c =>
    rw [h] at ht
    exact (append_nil _).trans (edgeRound_dst b fun hc => ht (congrArg some hc))

theorem upEdge_child (ht : root? t = some c) (hne : c ≠ v) :
    (upEdge buf cnt num v i b t).flatMap (· c) = [⟨.send buf cnt v, false⟩] := by
  unfold upEdge
  rw [ht]
  exact (append_nil _).trans (edgeRound_src b hne)

theorem up_entries_below (hlinked : Linked C (some v) t) (hv : v ∉ labels t) (hr : r ∈ labels t)
    (hup : (upRounds buf cnt num true t).flatMap (· r) = entriesOf true (childRecvs buf cnt num (C r)) ++
      if root? t = some r then [] else parentSend buf cnt (C r)) :
    (upRounds buf cnt num true t ++ upEdge buf cnt num v i b t).flatMap (· r) =
      entriesOf true (childRecvs buf cnt num (C r)) ++ parentSend buf cnt (C r) := by
  have hne : r ≠ v := fun h => hv (h ▸ hr)
  rw [flatMap_append, hup, append_assoc]
  by_cases htop : root? t = some r
  · rw [if_pos htop, upEdge_child htop hne, parentSend, hlinked.parent_root htop]
    rfl
  · rw [if_neg htop, upEdge_other hne htop, append_nil]

/-- **What a rank does on the way up** is told by its links: it receives from its children and, below the root, sends
to its parent. -/
theorem up_entries (hlinked : Linked C par t) (hnodup : (labels t).Nodup) (hr : r ∈ labels t) (fence : Bool) :
    (upRounds buf cnt num fence t).flatMap (· r) =
      entriesOf (if root? t = some r then fence else true) (childRecvs buf cnt num (C r)) ++
        if root? t = some r then [] else parentSend buf cnt (C r) := by
  induction t generalizing par fence with
  | nil => cases hr
  | node v l r' hl hr' =>
    obtain ⟨hv, hleft, hright⟩ := hlinked
    obtain ⟨hnl, hnr, hvl, hvr, hdisj⟩ := nodup_labels_node.mp hnodup
    rw [upRounds, flatMap_append, root?_node]
    rcases mem_labels_node.mp hr with rfl | hmem | hmem
    · rw [flatMap_append, flatMap_append, edges_other (upRounds_isEdge hnl) hvl,
        edges_other (upRounds_isEdge hnr) hvr, upEdge_parent (root?_ne hvl), upEdge_parent (root?_ne hvr), hv,
        if_pos rfl, if_pos rfl]
      unfold childRecvs
      cases root? l <;> cases root? r' <;> simp
    · obtain ⟨hne, htop, hout⟩ := left_only hnodup hmem
      have hup := hl hleft hnl hmem true
      rw [ite_self] at hup
      rw [up_entries_below hleft hvl hmem hup, flatMap_append, edges_other (upRounds_isEdge hnr) hout,
        upEdge_other hne (root?_ne hout), if_neg htop, if_neg htop, append_nil, append_nil]
    · obtain ⟨hne, htop, hout⟩ := right_only hnodup hmem
      have hup := hr' hright hnr hmem true
      rw [ite_self] at hup
      rw [up_entries_below hright hvr hmem hup, flatMap_append, edges_other (upRounds_isEdge hnl) hout,
        upEdge_other hne (root?_ne hout), if_neg htop, if_neg htop]
      rfl

/-! ### What a rank does on the way down -/

theorem downEdge_other (hv : r ≠ v) (ht : root? t ≠ some r) : (downEdge buf cnt fence v t).flatMap (· r) = [] := by
  cases t with
  | nil => rfl
  | node c l r' => exact (append_nil _).trans (edgeRound_other _ hv fun h => ht (congrArg some h.symm))

theorem downEdge_parent (ht : root? t ≠ some v) :
    (downEdge buf cnt fence v t).flatMap (· v) = entriesOf false ((root? t).toList.map (.send buf cnt ·)) := by
  cases t with
  | nil => rfl
  | node c l r' => exact (append_nil _).trans (edgeRound_src _ fun h => ht (congrArg some h.symm))

theorem down_entries_below (hlinked : Linked C (some v) t) (hv : v ∉ labels t) (hr : r ∈ labels t)
    (hdown : (downRounds buf cnt fence t).flatMap (· r) =
      (if root? t = some r then [] else parentRecv buf cnt fence (C r)) ++ entriesOf false (childSends buf cnt (C r))) :
    (downEdge buf cnt fence v t ++ downRounds buf cnt fence t).flatMap (· r) =
      parentRecv buf cnt fence (C r) ++ entriesOf false (childSends buf cnt (C r)) := by
  have hne : r ≠ v := fun h => hv (h ▸ hr)
  rw [flatMap_append, hdown, ← append_assoc]
  by_cases htop : root? t = some r
  · rw [if_pos htop, append_nil]
    cases t with
    | nil => cases htop
    | node c l r' =>
      obtain rfl : c = r := Option.some.inj htop
      rw [show (downEdge buf cnt fence v (.node c l r')).flatMap (· c) = _ from
        (append_nil _).trans (edgeRound_dst _ hne.symm), hlinked.1]
      rfl
  · rw [if_neg htop, downEdge_other hne htop, nil_append]

/-- **What a rank does on the way down** is told by its links: below the root it receives from its parent, and it sends
to its children. -/
theorem down_entries (hlinked : Linked C par t) (hnodup : (labels t).Nodup) (hr : r ∈ labels t) :
    (downRounds buf cnt fence t).flatMap (· r) =
      (if root? t = some r then [] else parentRecv buf cnt fence (C r)) ++
        entriesOf false (childSends buf cnt (C r)) := by
  induction t generalizing par with
  | nil => cases hr
  | node v l r' hl hr' =>
    obtain ⟨hv, hleft, hright⟩ := hlinked
    obtain ⟨hnl, hnr, hvl, hvr, hdisj⟩ := nodup_labels_node.mp hnodup
    rw [downRounds, flatMap_append, root?_node]
    rcases mem_labels_node.mp hr with rfl | hmem | hmem
    · rw [flatMap_append, flatMap_append, edges_other (downRounds_isEdge hnl) hvl,
        edges_other (downRounds_isEdge hnr) hvr, downEdge_parent (root?_ne hvl),
        downEdge_parent (root?_ne hvr), hv, if_pos rfl]
      unfold childSends
      cases root? l <;> cases root? r' <;> simp
    · obtain ⟨hne, htop, hout⟩ := left_only hnodup hmem
      rw [down_entries_below hleft hvl hmem (hl hleft hnl hmem), flatMap_append,
        edges_other (downRounds_isEdge hnr) hout, downEdge_other hne (root?_ne hout), if_neg htop, append_nil]
      exact append_nil _
    · obtain ⟨hne, htop, hout⟩ := right_only hnodup hmem
      rw [down_entries_below hright hvr hmem (hr' hright hnr hmem), flatMap_append,
        edges_other (downRounds_isEdge hnl) hout, downEdge_other hne (root?_ne hout), if_neg htop]
      rfl

/-! ## What the rounds leave -/

variable {α : Type} (op : α → α → α)

/-! ### Down -/

section

theorem downEdge_exec_other (h : root? t ≠ some r) (σ : Nat → Mem α) :
    execRounds op (downEdge buf cnt fence v t) σ r = σ r := by
  cases t with
  | nil => rfl
  | node c l r' => exact edge_exec_other op _ σ fun he => h (congrArg some he.symm)

theorem downEdge_exec (hc : root? t = some c) (hv : v < n) (hlt : c < n) (hne : v ≠ c) (σ : Nat → Mem α)
    (hi : i < cnt) : execRounds op (downEdge buf cnt fence v t) σ c (buf.at i) = σ v (buf.at i) := by
  cases t with
  | nil => cases hc
  | node c' l r' =>
    obtain rfl : c' = c := Option.some.inj hc
    show exec op _ σ c' _ = _
    rw [edge_exec_recv op _ σ hv hlt hne, store_load_at hi]

/-- **After the way down every rank has what the root had.** -/
theorem down_exec (hnodup : (labels t).Nodup) (hlt : ∀ v ∈ labels t, v < n) (σ : Nat → Mem α) (hq : root? t = some q)
    (hr : r ∈ labels t) (hi : i < cnt) : execRounds op (downRounds buf cnt fence t) σ r (buf.at i) = σ q (buf.at i) := by
  induction t generalizing σ q r with
  | nil => cases hq
  | node v l r' hl hr' =>
    cases hq
    obtain ⟨hnl, hnr, hvl, hvr, hdisj⟩ := nodup_labels_node.mp hnodup
    have hltl : ∀ w ∈ labels l, w < n := fun w hw => hlt w (mem_left hw)
    have hltr : ∀ w ∈ labels r', w < n := fun w hw => hlt w (mem_right hw)
    have hv := hlt v mem_self
    -- a subtree gets what `v` has, and leaves `v` alone
    have hsub : ∀ {t : BinaryTree Nat}, v ∉ labels t → (∀ w ∈ labels t, w < n) →
        (∀ (σ : Nat → Mem α) {q r : Nat}, root? t = some q → r ∈ labels t →
          execRounds op (downRounds buf cnt fence t) σ r (buf.at i) = σ q (buf.at i)) →
        ∀ (σ : Nat → Mem α) {r}, r ∈ labels t →
          execRounds op (downEdge buf cnt fence v t ++ downRounds buf cnt fence t) σ r (buf.at i) = σ v (buf.at i) := by
      intro t hvt hltt ih σ r hr
      cases ht : root? t with
      | none =>
        cases t with
        | nil => cases hr
        | node => cases ht
      | some c =>
        have hc := mem_labels_root ht
        rw [execRounds_append, ih _ ht hr, downEdge_exec op ht hv (hltt c hc) (fun h => hvt (h ▸ hc)) σ hi]
    have hkeep : ∀ {t : BinaryTree Nat}, (labels t).Nodup → ∀ (σ : Nat → Mem α) {r}, r ∉ labels t →
        execRounds op (downEdge buf cnt fence v t ++ downRounds buf cnt fence t) σ r = σ r := by
      intro t ht σ r h
      rw [execRounds_append, edges_exec_other op (downRounds_isEdge ht) h, downEdge_exec_other op (root?_ne h)]
    rw [downRounds, execRounds_append]
    rcases mem_labels_node.mp hr with rfl | hmem | hmem
    · rw [hkeep hnr _ hvr, hkeep hnl _ hvl]
    · rw [hkeep hnr _ (hdisj r hmem), hsub hvl hltl (fun σ {q r} hq hr => hl hnl hltl σ hq hr) σ hmem]
    · rw [hsub hvr hltr (fun σ {q r} hq hr => hr' hnr hltr σ hq hr) _ hmem, hkeep hnl _ hvl]

end

/-! ### Up -/

theorem upEdge_exec_other (h : r ≠ v) (σ : Nat → Mem α) : execRounds op (upEdge buf cnt num v i b t) σ r = σ r := by
  unfold upEdge
  cases root? t with
  | none => rfl
  | some c => exact edge_exec_other op _ σ h

theorem treeTmp_apart (hbuf : ∀ i, buf.src ≠ .alloc num i) (i : Nat) :
    PieceApart (treeTmp cnt num i, cnt) (buf, cnt) := by
  by_cases h : cnt = 0
  · exact .inr (.inr (.inr (.inl h)))
  · rw [treeTmp, if_neg h]
    exact .inl fun he => hbuf i he.symm

theorem upEdge_exec (hbuf : ∀ i, buf.src ≠ .alloc num i) (hc : root? t = some c) (hv : v < n) (hlt : c < n)
    (hne : c ≠ v) (σ : Nat → Mem α) (hj : j < cnt) :
    execRounds op (upEdge buf cnt num v i b t) σ v (buf.at j) = op (σ v (buf.at j)) (σ c (buf.at j)) := by
  unfold upEdge
  rw [hc]
  show exec op _ σ v _ = _
  rw [edge_exec_recvReduce op b σ hlt hv hne]
  exact EntryKind.run_recvReduce_local op (treeTmp_apart hbuf i).disjoint hj c buf (σ v) (σ c)

section

variable [Std.Commutative op] [Std.Associative op] {n : Nat}

theorem up_exec_below (hbuf : ∀ i, buf.src ≠ .alloc num i) (hnodup : (labels t).Nodup) (hv : v < n)
    (hvt : v ∉ labels t) (hlt : ∀ w ∈ labels t, w < n) (hj : j < cnt)
    (ih : ∀ (σ : Nat → Mem α) {q : Nat}, root? t = some q → Reduces op (fun r => σ r (buf.at j)) (labels t).toFinset
      (execRounds op (upRounds buf cnt num true t) σ q (buf.at j)))
    {σ : Nat → Mem α} {f : Nat → α} {S : Finset Nat} (hS : Reduces op f S (σ v (buf.at j)))
    (hf : ∀ w ∈ labels t, σ w (buf.at j) = f w) (hdisj : Disjoint S (labels t).toFinset) :
    Reduces op f (S ∪ (labels t).toFinset)
      (execRounds op (upRounds buf cnt num true t ++ upEdge buf cnt num v i b t) σ v (buf.at j)) := by
  rw [execRounds_append]
  cases ht : root? t with
  | none =>
    cases t with
    | node => cases ht
    | nil =>
      show Reduces op f (S ∪ ∅) (σ v (buf.at j))
      rwa [Finset.union_empty]
  | some c =>
    have hc := mem_labels_root ht
    rw [upEdge_exec op hbuf ht hv (hlt c hc) (fun h => hvt (h ▸ hc)) _ hj,
      edges_exec_other op (upRounds_isEdge hnodup) hvt]
    exact hS.union ((ih σ ht).congr fun w hw => hf w (mem_toFinset.mp hw)) hdisj

/-- **After the way up the root has the reduction of the tree.** -/
theorem up_exec (hbuf : ∀ i, buf.src ≠ .alloc num i) (hnodup : (labels t).Nodup) (hlt : ∀ v ∈ labels t, v < n)
    (fence : Bool) (σ : Nat → Mem α) (hq : root? t = some q) (hj : j < cnt) :
    Reduces op (fun r => σ r (buf.at j)) (labels t).toFinset
      (execRounds op (upRounds buf cnt num fence t) σ q (buf.at j)) := by
  induction t generalizing σ q fence with
  | nil => cases hq
  | node v l r hl hr =>
    cases hq
    obtain ⟨hnl, hnr, hvl, hvr, hdisj⟩ := nodup_labels_node.mp hnodup
    have hltl : ∀ w ∈ labels l, w < n := fun w hw => hlt w (mem_left hw)
    have hltr : ∀ w ∈ labels r, w < n := fun w hw => hlt w (mem_right hw)
    have hv := hlt v mem_self
    have hlabels : (labels (.node v l r)).toFinset = {v} ∪ (labels l).toFinset ∪ (labels r).toFinset := by
      ext w
      simp only [mem_toFinset, Finset.mem_union, Finset.mem_singleton, mem_labels_node, or_assoc]
    rw [hlabels, upRounds, execRounds_append]
    -- the left subtree leaves the right one alone
    refine up_exec_below op hbuf hnr hv hvr hltr hj (fun σ {q} hq => hr hnr hltr true σ hq)
      (up_exec_below op hbuf hnl hv hvl hltl hj (fun σ {q} hq => hl hnl hltl true σ hq)
        (reduces_singleton _ v) (fun w _ => rfl) ?_) (fun w hw => ?_) ?_
    · rw [Finset.disjoint_singleton_left, mem_toFinset]
      exact hvl
    · have hout : w ∉ labels l := fun h => hdisj w h hw
      have hne : w ≠ v := fun h => hvr (h ▸ hw)
      rw [execRounds_append, upEdge_exec_other op hne, edges_exec_other op (upRounds_isEdge hnl) hout]
    · rw [Finset.disjoint_union_left, Finset.disjoint_singleton_left, mem_toFinset]
      refine ⟨hvr, Finset.disjoint_left.mpr fun w hw hw' => ?_⟩
      exact hdisj w (mem_toFinset.mp hw) (mem_toFinset.mp hw')

end

/-! ### The rest of the memory -/

theorem edge_exec_frame {src dst : Nat} {k : EntryKind} (hs : src < n) (hd : dst < n) (hne : src ≠ dst)
    (hk : k.receivedFrom = some (src, cnt)) (b : Bool) (σ : Nat → Mem α) (ha : ∀ p ∈ k.writes, a ∉ region p.1 p.2) :
    (edgeRound buf cnt src dst k b).exec op σ r a = σ r a := by
  rw [edgeRound, exec_barrier op _ false]
  refine (edgeKinds_good hs hd hne hk).roomy.exec_frame op false σ fun k' hk' p hp => ?_
  unfold edgeKinds at hk'
  split at hk'
  · rw [mem_singleton.mp hk'] at hp
    cases hp
  · split at hk'
    · rw [mem_singleton.mp hk'] at hp
      exact ha p hp
    · cases hk'

theorem down_frame (hnodup : (labels t).Nodup) (hlt : ∀ v ∈ labels t, v < n) (ha : a ∉ region buf cnt)
    (σ : Nat → Mem α) : execRounds op (downRounds buf cnt fence t) σ r a = σ r a := by
  refine execRounds_frame op (fun R hR σ => ?_) σ
  obtain ⟨v, c, b, hv, hc, hne, rfl⟩ := mem_downRounds hnodup hR
  refine edge_exec_frame op (hlt v hv) (hlt c hc) hne rfl b σ fun p hp => ?_
  rw [mem_singleton.mp hp]
  exact ha

theorem up_frame {fence : Bool} (hnodup : (labels t).Nodup) (hlt : ∀ v ∈ labels t, v < n) (ha : a ∉ region buf cnt)
    (hsrc : ∀ i, a.1 ≠ .alloc num i) (σ : Nat → Mem α) : execRounds op (upRounds buf cnt num fence t) σ r a = σ r a := by
  refine execRounds_frame op (fun R hR σ => ?_) σ
  obtain ⟨c, v, i, b, hc, hv, hne, rfl⟩ := mem_upRounds hnodup hR
  refine edge_exec_frame op (hlt c hc) (hlt v hv) hne rfl b σ fun p hp => ?_
  rcases mem_pair.mp hp with rfl | rfl
  · exact ha
  · intro hmem
    obtain ⟨j, hj, rfl⟩ := exists_at_of_mem_region hmem
    have hcnt : cnt ≠ 0 := (Nat.zero_lt_of_lt hj).ne'
    refine hsrc i ?_
    rw [treeTmp, if_neg hcnt]
    rfl

end

end OneCcl
