import Mathlib.Data.Nat.Bitwise
import OneCcl.Reduction.Doubling
import OneCcl.Reduction.Rotate

/-!
# Binomial trees

The numbers below `n`, as a binomial tree with root `0`: the parent of a number is the number without its lowest
bit, which is the bit of the step in which the two meet. After the steps on the first `k` bits a multiple of
`2 ^ k` stands for its **subtree**, the numbers from it up to the next multiple, as far as there are any: the tree is
truncated when `n` is no power of two.
-/

namespace Reduction

open List

/-! ## The lowest bit -/

section Bits

variable {v k : Nat}

theorem mod_two_pow_succ (h : v % 2 ^ k = 0) : v % 2 ^ (k + 1) = 0 ∨ v % 2 ^ (k + 1) = 2 ^ k := by
  rw [Nat.mod_pow_succ, h]
  rcases Nat.mod_two_eq_zero_or_one (v / 2 ^ k) with h2 | h2 <;> rw [h2]
  · left
    omega
  · right
    omega

theorem mod_two_pow_of_succ (h : v % 2 ^ (k + 1) = 0) : v % 2 ^ k = 0 :=
  Nat.mod_eq_zero_of_dvd (Nat.dvd_trans (Nat.pow_dvd_pow 2 (Nat.le_succ k)) (Nat.dvd_of_mod_eq_zero h))

theorem mod_two_pow_of_half (h : v % 2 ^ (k + 1) = 2 ^ k) : v % 2 ^ k = 0 := by
  rw [← Nat.mod_mod_of_dvd v (Nat.pow_dvd_pow 2 (Nat.le_succ k)), h, Nat.mod_self]

theorem div_two_pow_mod_two_of_zero (h : v % 2 ^ (k + 1) = 0) : v / 2 ^ k % 2 = 0 := by
  have h0 := mod_two_pow_of_succ h
  rw [Nat.mod_pow_succ, h0, Nat.zero_add] at h
  rcases Nat.mul_eq_zero.mp h with h | h
  · omega
  · exact h

theorem div_two_pow_mod_two_of_half (h : v % 2 ^ (k + 1) = 2 ^ k) : v / 2 ^ k % 2 = 1 := by
  have h0 := mod_two_pow_of_half h
  rw [Nat.mod_pow_succ, h0, Nat.zero_add] at h
  exact Nat.eq_of_mul_eq_mul_left (Nat.two_pow_pos k) (by rw [h, Nat.mul_one])

theorem testBit_of_zero (h : v % 2 ^ (k + 1) = 0) : v.testBit k = false := by
  rw [Nat.testBit_eq_decide_div_mod_eq, div_two_pow_mod_two_of_zero h]
  rfl

theorem testBit_of_half (h : v % 2 ^ (k + 1) = 2 ^ k) : v.testBit k = true := by
  rw [Nat.testBit_eq_decide_div_mod_eq, div_two_pow_mod_two_of_half h]
  rfl

theorem and_two_pow_of_zero (h : v % 2 ^ (k + 1) = 0) : v &&& 2 ^ k = 0 := by
  rw [Nat.and_two_pow, testBit_of_zero h]
  exact Nat.zero_mul _

theorem and_two_pow_of_half (h : v % 2 ^ (k + 1) = 2 ^ k) : v &&& 2 ^ k = 2 ^ k := by
  rw [Nat.and_two_pow, testBit_of_half h]
  exact Nat.one_mul _

theorem or_two_pow_of_zero (h : v % 2 ^ (k + 1) = 0) : v ||| 2 ^ k = v + 2 ^ k := by
  have hxor := xor_two_pow v k
  rw [if_pos (div_two_pow_mod_two_of_zero h)] at hxor
  rw [← hxor]
  refine Nat.eq_of_testBit_eq fun i => ?_
  rw [Nat.testBit_or, Nat.testBit_xor, Nat.testBit_two_pow]
  by_cases hi : k = i
  · rw [← hi, testBit_of_zero h, Bool.false_or, Bool.false_xor]
  · rw [decide_eq_false hi, Bool.or_false, Bool.xor_false]

theorem xor_two_pow_of_half (h : v % 2 ^ (k + 1) = 2 ^ k) : v ^^^ 2 ^ k = v - 2 ^ k := by
  rw [xor_two_pow, if_neg]
  rw [div_two_pow_mod_two_of_half h]
  decide

theorem two_pow_le_of_half (h : v % 2 ^ (k + 1) = 2 ^ k) : 2 ^ k ≤ v := h ▸ Nat.mod_le v _

theorem add_two_pow_half (h : v % 2 ^ (k + 1) = 0) : (v + 2 ^ k) % 2 ^ (k + 1) = 2 ^ k := by
  rw [Nat.add_mod, h, Nat.zero_add, Nat.mod_mod]
  exact Nat.mod_eq_of_lt (Nat.pow_lt_pow_right (by decide) (Nat.lt_succ_self k))

theorem sub_two_pow_zero (h : v % 2 ^ (k + 1) = 2 ^ k) : (v - 2 ^ k) % 2 ^ (k + 1) = 0 := by
  have hlt : 2 ^ k < 2 ^ (k + 1) := Nat.pow_lt_pow_right (by decide) (Nat.lt_succ_self k)
  exact Nat.sub_mod_eq_zero_of_mod_eq (h.trans (Nat.mod_eq_of_lt hlt).symm)

theorem exists_lowest_bit (hv : 0 < v) : ∃ k, v % 2 ^ (k + 1) = 2 ^ k := by
  by_contra hnone
  have hall : ∀ k, v % 2 ^ k = 0 := by
    intro k
    induction k with
    | zero => exact Nat.mod_one v
    | succ k ih => exact (mod_two_pow_succ ih).resolve_right fun h => hnone ⟨k, h⟩
  have := hall v
  rw [Nat.mod_eq_of_lt Nat.lt_two_pow_self] at this
  omega

variable {j : Nat}

theorem mod_two_pow_ne_of_half (h : v % 2 ^ (k + 1) = 2 ^ k) (hkj : k < j) : v % 2 ^ j ≠ 0 := by
  intro h0
  have hdvd : 2 ^ (k + 1) ∣ v := Nat.dvd_trans (Nat.pow_dvd_pow 2 hkj) (Nat.dvd_of_mod_eq_zero h0)
  rw [Nat.mod_eq_zero_of_dvd hdvd] at h
  exact absurd h.symm ((Nat.two_pow_pos k).ne')

theorem lowest_bit_unique (h : v % 2 ^ (k + 1) = 2 ^ k) (h' : v % 2 ^ (j + 1) = 2 ^ j) : k = j := by
  rcases lt_trichotomy k j with hlt | heq | hgt
  · exact absurd (mod_two_pow_of_half h') (mod_two_pow_ne_of_half h hlt)
  · exact heq
  · exact absurd (mod_two_pow_of_half h) (mod_two_pow_ne_of_half h' hgt)

theorem length_flatMap_lowest_bit {β : Type} {x : Nat → β} {n : Nat} (hv : v < n) :
    ((range n).flatMap fun k => if v % 2 ^ (k + 1) = 2 ^ k then [x k] else []).length = if v = 0 then 0 else 1 := by
  split
  next h =>
    rw [length_eq_zero_iff, flatMap_eq_nil_iff]
    intro k _
    rw [h, Nat.zero_mod, if_neg ((Nat.two_pow_pos k).ne)]
  next h =>
    obtain ⟨k, hk⟩ := exists_lowest_bit (Nat.pos_of_ne_zero h)
    have hkn : k < n := by
      have := two_pow_le_of_half hk
      have : k < 2 ^ k := Nat.lt_two_pow_self
      omega
    -- the steps before and after that of the lowest bit
    have hother : ∀ j, j ≠ k → (if v % 2 ^ (j + 1) = 2 ^ j then [x j] else []) = [] := by
      intro j hj
      exact if_neg fun h' => hj (lowest_bit_unique h' hk)
    obtain ⟨m, rfl⟩ : ∃ m, n = k + 1 + m := ⟨n - (k + 1), by omega⟩
    rw [range_add, range_succ, flatMap_append, flatMap_append, flatMap_singleton, if_pos hk,
      flatMap_eq_nil_iff.mpr, flatMap_eq_nil_iff.mpr]
    · rfl
    · intro j hj
      obtain ⟨i, -, rfl⟩ := mem_map.mp hj
      exact hother _ (by omega)
    · intro j hj
      exact hother j ((mem_range.mp hj).ne)

end Bits

/-! ## Subtrees -/

/-- What a multiple of `2 ^ k` stands for after the steps on the first `k` bits. -/
def subtree (n k v : Nat) : Finset Nat := Finset.Ico v (min (v + 2 ^ k) n)

variable {n k v : Nat}

theorem mem_subtree {u : Nat} : u ∈ subtree n k v ↔ v ≤ u ∧ u < v + 2 ^ k ∧ u < n := by
  rw [subtree, Finset.mem_Ico, Nat.lt_min]

theorem subtree_zero (hv : v < n) : subtree n 0 v = {v} := by
  ext u
  rw [mem_subtree, Finset.mem_singleton, Nat.pow_zero]
  omega

theorem subtree_succ : subtree n (k + 1) v = subtree n k v ∪ subtree n k (v + 2 ^ k) := by
  ext u
  rw [Finset.mem_union, mem_subtree, mem_subtree, mem_subtree, Nat.pow_succ]
  omega

theorem subtree_of_le (h : n ≤ v) : subtree n k v = ∅ := by
  ext u
  rw [mem_subtree]
  simp only [Finset.notMem_empty, iff_false]
  omega

theorem subtree_disjoint : Disjoint (subtree n k v) (subtree n k (v + 2 ^ k)) := by
  rw [Finset.disjoint_left]
  intro u hu hu'
  rw [mem_subtree] at hu hu'
  omega

theorem subtree_top (h : n ≤ 2 ^ k) : subtree n k 0 = Finset.range n := by
  ext u
  rw [mem_subtree, Finset.mem_range]
  omega

variable {α : Type} {op : α → α → α} [Std.Commutative op] [Std.Associative op]

variable {f : Nat → α} {x : α} {r : Nat}

/-- **One step of the tree**: a number takes over what its child stands for. -/
theorem Reduces.subtree_join {y : α} (hx : Reduces op f (subtree n k v) x)
    (hy : Reduces op f (subtree n k (v + 2 ^ k)) y) : Reduces op f (subtree n (k + 1) v) (op x y) := by
  rw [subtree_succ]
  exact hx.union hy subtree_disjoint

theorem Reduces.subtree_skip (hx : Reduces op f (subtree n k v) x) (h : n ≤ v + 2 ^ k) :
    Reduces op f (subtree n (k + 1) v) x := by
  rw [subtree_succ, subtree_of_le h, Finset.union_empty]
  exact hx

/-! ## Numbering from another root -/

theorem rotUp_injOn (hr : r < n) : Set.InjOn (fun v => rotUp n v r) (Finset.range n) := by
  intro v hv u hu h
  have hv := Finset.mem_range.mp (Finset.mem_coe.mp hv)
  have hu := Finset.mem_range.mp (Finset.mem_coe.mp hu)
  rw [← rotDown_rotUp hv hr, show rotUp n v r = rotUp n u r from h, rotDown_rotUp hu hr]

theorem image_rotUp (hr : r < n) : (Finset.range n).image (fun v => rotUp n v r) = Finset.range n := by
  ext u
  rw [Finset.mem_image, Finset.mem_range]
  constructor
  · rintro ⟨v, hv, rfl⟩
    exact rotUp_lt (Finset.mem_range.mp hv) hr
  · intro hu
    exact ⟨rotDown n u r, Finset.mem_range.mpr (rotDown_lt hu hr), rotUp_rotDown hu hr⟩

theorem Reduces.of_rotUp (hr : r < n)
    (hx : Reduces op (fun v => f (rotUp n v r)) (Finset.range n) x) : Reduces op f (Finset.range n) x := by
  rw [← image_rotUp hr]
  refine Eq.trans ?_ hx
  exact Finset.fold_image (rotUp_injOn hr)

end Reduction
