import Mathlib.Algebra.Order.Ring.Int
import Mathlib.Data.List.Range
import Mathlib.Data.List.Nodup

/-!
# Splitting a communicator

`ccl_comm::create_subcomm` splits the ranks of a communicator by a color: ranks of one color make a new communicator, in
which they keep their order. When every color has the same number of ranks this is a `Split`: every rank has a rank of its
own in its subcommunicator, and the subcommunicator has a member of every rank.
-/

namespace OneCcl

open List

/-! ## The ranks below a bound that have a property -/

variable {p : Nat → Bool} {n r k : Nat}

theorem getElem?_filter_range (hr : r < n) (hp : p r = true) : ((range n).filter p)[(range r).countP p]? = some r := by
  obtain ⟨d, rfl⟩ : ∃ d, n = r + 1 + d := ⟨n - (r + 1), by omega⟩
  rw [range_add, filter_append, range_succ, filter_append, filter_singleton, hp]
  have hlen : ((range r).filter p).length = (range r).countP p := countP_eq_length_filter.symm
  rw [append_assoc, getElem?_append_right hlen.le, hlen, Nat.sub_self]
  rfl

theorem countP_of_getElem?_filter_range (h : ((range n).filter p)[k]? = some r) : (range r).countP p = k := by
  have hmem := mem_filter.mp (mem_of_getElem? h)
  obtain ⟨hk, hkr⟩ := List.getElem?_eq_some_iff.mp h
  obtain ⟨hk', hkr'⟩ := List.getElem?_eq_some_iff.mp (getElem?_filter_range (List.mem_range.mp hmem.1) hmem.2)
  exact (List.Nodup.getElem_inj_iff (nodup_range.filter p)).mp (hkr'.trans hkr.symm)

/-! ## Splits -/

/-- The ranks `0 … n-1`, split into subcommunicators of one size. -/
structure Split (n : Nat) where
  size : Nat
  /-- The rank that a rank has in its subcommunicator. -/
  rank : Nat → Nat
  /-- The `k`-th member of the subcommunicator of a rank. -/
  member : Nat → Nat → Nat
  rank_lt : ∀ r < n, rank r < size
  member_lt : ∀ r < n, ∀ k < size, member r k < n
  member_rank : ∀ r < n, member r (rank r) = r
  rank_member : ∀ r < n, ∀ k < size, rank (member r k) = k
  member_member : ∀ r < n, ∀ k < size, member (member r k) = member r

namespace Split

variable {n : Nat}

def whole (n : Nat) : Split n where
  size := n
  rank r := r
  member _ k := k
  rank_lt _ h := h
  member_lt _ _ _ h := h
  member_rank _ _ := rfl
  rank_member _ _ _ _ := rfl
  member_member _ _ _ _ := rfl

theorem member_injective (S : Split n) {j : Nat} (hr : r < n) (hj : j < S.size) (hk : k < S.size)
    (h : S.member r j = S.member r k) : j = k := by
  rw [← S.rank_member r hr j hj, h, S.rank_member r hr k hk]

def colorClass (n : Nat) (color : Nat → Nat) (c : Nat) : List Nat := (range n).filter fun r => color r = c

variable (n) in
theorem exists_of_lt_countP (color : Nat → Nat) (c : Nat) (hk : k < (range n).countP fun r => color r = c) :
    ∃ r, (colorClass n color c)[k]? = some r ∧ r < n ∧ color r = c := by
  rw [countP_eq_length_filter] at hk
  refine ⟨_, getElem?_eq_getElem hk, ?_⟩
  have hmem := mem_filter.mp (getElem_mem hk)
  exact ⟨mem_range.mp hmem.1, of_decide_eq_true hmem.2⟩

/-- `ccl_comm::create_subcomm`, for colors that have the same number of ranks each. -/
def ofColor (color : Nat → Nat) (size : Nat)
    (hsize : ∀ r < n, (range n).countP (fun r' => color r' = color r) = size) : Split n where
  size := size
  rank r := (range r).countP fun r' => color r' = color r
  member r k := (colorClass n color (color r))[k]?.getD 0
  rank_lt r hr := by
    have h := (List.getElem?_eq_some_iff.mp (getElem?_filter_range (p := fun r' => color r' = color r) hr (by simp))).1
    rwa [← countP_eq_length_filter, hsize r hr] at h
  member_lt r hr k hk := by
    obtain ⟨r', hget, hr', -⟩ := exists_of_lt_countP n color (color r) (by rwa [hsize r hr])
    rw [hget]
    exact hr'
  member_rank r hr := by
    rw [colorClass, getElem?_filter_range (p := fun r' => color r' = color r) hr (by simp)]
    rfl
  rank_member r hr k hk := by
    obtain ⟨r', hget, -, hc⟩ := exists_of_lt_countP n color (color r) (by rwa [hsize r hr])
    rw [hget]
    show (range r').countP (fun r'' => color r'' = color r') = k
    rw [hc]
    exact countP_of_getElem?_filter_range hget
  member_member r hr k hk := by
    obtain ⟨r', hget, -, hc⟩ := exists_of_lt_countP n color (color r) (by rwa [hsize r hr])
    rw [hget]
    show (fun k' => (colorClass n color (color r'))[k']?.getD 0) = _
    rw [hc]

end Split

end OneCcl
