import Mathlib.Data.Finset.Card
import Mathlib.Data.Finset.Range
import OneCcl.Comm.Split

/-!
# Ranks on nodes

A placement says on which node each rank of a communicator runs, with the same number of ranks on every node. The node
communicator of a rank has the ranks of its node, and the rank-to-rank communicator has the ranks that stand at the same
place of their nodes; both keep the order of the ranks. The two are orthogonal: a rank is given by its places in them, and
the nodes of the members of a rank-to-rank communicator are all nodes (`Placement.cover`).

Nothing says that the ranks are numbered node by node (`Placement.NodeByNode`).
-/

namespace OneCcl

/-- The node of every rank, with `ppn` ranks on each node. -/
structure Placement where
  nodes : Nat
  ppn : Nat
  node : Nat → Nat
  nodes_pos : 0 < nodes
  ppn_pos : 0 < ppn
  node_lt : ∀ r < nodes * ppn, node r < nodes
  full : ∀ v < nodes, (List.range (nodes * ppn)).countP (fun r => node r = v) = ppn

namespace Placement

variable (P : Placement)

def size : Nat := P.nodes * P.ppn

theorem size_pos : 0 < P.size := Nat.mul_pos P.nodes_pos P.ppn_pos

/-- `get_node_comm()`. -/
def nodeComm : Split P.size := .ofColor P.node P.ppn fun r hr => P.full _ (P.node_lt r hr)

/-- `node_comm->rank()`. -/
def localRank (r : Nat) : Nat := P.nodeComm.rank r

variable {P}

variable {r k r' j i : Nat}

variable (P) in
theorem localRank_lt (hr : r < P.size) : P.localRank r < P.ppn := P.nodeComm.rank_lt r hr

variable (P) in
theorem localRank_nodeMember (hr : r < P.size) (hk : k < P.ppn) : P.localRank (P.nodeComm.member r k) = k :=
  P.nodeComm.rank_member r hr k hk

variable (P) in
theorem two_le_nodes (h : P.nodes ≠ 1) : 2 ≤ P.nodes := by
  have := P.nodes_pos
  omega

variable (P) in
theorem two_le_size (h : 2 ≤ P.nodes) : 2 ≤ P.size := h.trans (Nat.le_mul_of_pos_right _ P.ppn_pos)

/-- A rank that is alone on its node. -/
theorem alone_of_ppn (hr : r < P.size) (h : ¬P.ppn > 1) : P.ppn = 1 ∧ P.localRank r = 0 ∧ P.nodeComm.member r 0 = r := by
  have hlt := P.localRank_lt hr
  have hzero : P.localRank r = 0 := by omega
  refine ⟨by omega, hzero, ?_⟩
  rw [← show P.nodeComm.rank r = 0 from hzero]
  exact P.nodeComm.member_rank r hr

theorem node_nodeMember (hr : r < P.size) (hk : k < P.ppn) : P.node (P.nodeComm.member r k) = P.node r := by
  obtain ⟨r', hget, -, hc⟩ := Split.exists_of_lt_countP P.size P.node (P.node r) (k := k)
    (by rwa [show (List.range P.size).countP _ = P.ppn from P.full _ (P.node_lt r hr)])
  show P.node ((Split.colorClass P.size P.node (P.node r))[k]?.getD 0) = _
  rw [hget]
  exact hc

theorem eq_of_node_local (hr : r < P.size) (hr' : r' < P.size) (hnode : P.node r = P.node r')
    (hlocal : P.localRank r = P.localRank r') : r = r' := by
  have hmem : P.nodeComm.member r = P.nodeComm.member r' := by
    show (fun k => (Split.colorClass P.size P.node (P.node r))[k]?.getD 0) = _
    rw [hnode]
    rfl
  rw [← P.nodeComm.member_rank r hr, ← P.nodeComm.member_rank r' hr', hmem]
  exact congrArg _ hlocal

theorem exists_rank {v : Nat} (hv : v < P.nodes) (hk : k < P.ppn) : ∃ r < P.size, P.node r = v ∧ P.localRank r = k := by
  obtain ⟨r, hget, hr, hnode⟩ := Split.exists_of_lt_countP P.size P.node v (k := k)
    (by rwa [show (List.range P.size).countP _ = P.ppn from P.full v hv])
  refine ⟨r, hr, hnode, ?_⟩
  subst hnode
  exact countP_of_getElem?_filter_range hget

theorem countP_localRank (hr : r < P.size) :
    (List.range P.size).countP (fun r' => P.localRank r' = P.localRank r) = P.nodes := by
  have hcard : ((Finset.range P.size).filter fun r' => P.localRank r' = P.localRank r).card = (Finset.range P.nodes).card := by
    refine Finset.card_bij (fun r' _ => P.node r') ?_ ?_ ?_
    · intro r' hr'
      exact Finset.mem_range.mpr (P.node_lt r' (Finset.mem_range.mp (Finset.mem_filter.mp hr').1))
    · intro r₁ h₁ r₂ h₂ hnode
      rw [Finset.mem_filter, Finset.mem_range] at h₁ h₂
      exact eq_of_node_local h₁.1 h₂.1 hnode (h₁.2.trans h₂.2.symm)
    · intro v hv
      obtain ⟨r', hr', hnode, hlocal⟩ := exists_rank (Finset.mem_range.mp hv) (P.localRank_lt hr)
      exact ⟨r', Finset.mem_filter.mpr ⟨Finset.mem_range.mpr hr', hlocal⟩, hnode⟩
  rw [Finset.card_range] at hcard
  rw [List.countP_eq_length_filter, ← hcard]
  rfl

variable (P)

/-- `get_r2r_comm()`. -/
def r2rComm : Split P.size := .ofColor P.localRank P.nodes fun _ hr => countP_localRank hr

/-- `r2r_comm->rank()`. -/
def r2rRank (r : Nat) : Nat := P.r2rComm.rank r

/-- The place of a rank in the grid of the subcommunicators. -/
def slot (r : Nat) : Nat := P.r2rRank r * P.ppn + P.localRank r

/-- The ranks are numbered node by node, as far as the subcommunicators see it. -/
def NodeByNode : Prop := ∀ r < P.size, P.slot r = r

variable {P}

theorem localRank_r2rMember (hr : r < P.size) (hj : j < P.nodes) : P.localRank (P.r2rComm.member r j) = P.localRank r := by
  obtain ⟨r', hget, -, hc⟩ := Split.exists_of_lt_countP P.size P.localRank (P.localRank r) (k := j)
    (by rwa [countP_localRank hr])
  show P.localRank ((Split.colorClass P.size P.localRank (P.localRank r))[j]?.getD 0) = _
  rw [hget]
  exact hc

theorem slot_r2rMember (hr : r < P.size) (hi : i < P.nodes) : P.slot (P.r2rComm.member r i) = i * P.ppn + P.localRank r := by
  rw [slot, localRank_r2rMember hr hi, show P.r2rRank (P.r2rComm.member r i) = i from P.r2rComm.rank_member r hr i hi]

theorem NodeByNode.r2rMember (h : P.NodeByNode) (hr : r < P.size) (hi : i < P.nodes) :
    P.r2rComm.member r i = i * P.ppn + P.localRank r :=
  (h _ (P.r2rComm.member_lt r hr i hi)).symm.trans (slot_r2rMember hr hi)

theorem node_r2rMember_injective {j' : Nat} (hr : r < P.size) (hj : j < P.nodes) (hj' : j' < P.nodes)
    (h : P.node (P.r2rComm.member r j) = P.node (P.r2rComm.member r j')) : j = j' := by
  refine P.r2rComm.member_injective hr hj hj' ?_
  refine eq_of_node_local (P.r2rComm.member_lt r hr j hj) (P.r2rComm.member_lt r hr j' hj') h ?_
  rw [localRank_r2rMember hr hj, localRank_r2rMember hr hj']

/-- **The nodes of the members of a rank-to-rank communicator are all nodes**: every rank is on one of them. -/
theorem cover (hr : r < P.size) (hr' : r' < P.size) :
    ∃ j < P.nodes, ∃ k < P.ppn, P.nodeComm.member (P.r2rComm.member r j) k = r' := by
  obtain ⟨m, hm, hnode, hlocal⟩ := exists_rank (P.node_lt r' hr') (P.localRank_lt hr)
  -- the rank of the node of `r'` that stands at the place of `r` is a member of the communicator of `r`
  have hmember : P.r2rComm.member r (P.r2rRank m) = m := by
    have hsame : P.r2rComm.member r = P.r2rComm.member m := by
      show (fun k => (Split.colorClass P.size P.localRank (P.localRank r))[k]?.getD 0) = _
      rw [show P.localRank r = P.localRank m from hlocal.symm]
      rfl
    rw [hsame]
    exact P.r2rComm.member_rank m hm
  refine ⟨P.r2rRank m, P.r2rComm.rank_lt m hm, P.localRank r', P.localRank_lt hr', ?_⟩
  rw [hmember]
  refine eq_of_node_local (P.nodeComm.member_lt m hm _ (P.localRank_lt hr')) hr' ?_
    (P.localRank_nodeMember hm (P.localRank_lt hr'))
  exact (node_nodeMember hm (P.localRank_lt hr')).trans hnode

end Placement

end OneCcl
