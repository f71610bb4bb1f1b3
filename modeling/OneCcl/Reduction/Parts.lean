import Mathlib.Algebra.Order.Ring.Int
import Mathlib.Order.Basic

/-!
# Cutting a range into parts

`total` elements are cut into `k` parts of `total / k` elements, the last of which gets what is left over as
well. The parts follow each other (`offset_add_div`), do not overlap (`ordered`), and every element is in one
of them (`exists_part`), also when there are fewer elements than parts and all but the last are empty.

Parts of any lengths follow each other in the same way: `sumTo` is where they begin. With `evenSize` the first parts get
what is left over, one element each.
-/

namespace Parts

/-- Where part `j` begins. -/
def offset (total k j : Nat) : Nat := total / k * j

/-- How long part `j` is. -/
def size (total k j : Nat) : Nat := if j = k - 1 then total / k + total % k else total / k

variable {total k i j : Nat}

theorem offset_add_div (total k j : Nat) : offset total k j + total / k = offset total k (j + 1) :=
  (Nat.mul_succ ..).symm

theorem size_of_lt (h : j + 1 < k) : size total k j = total / k := if_neg (by omega)

variable (total) in
theorem offset_add_size_last (hk : 0 < k) : offset total k (k - 1) + size total k (k - 1) = total := by
  have h1 : total / k * (k - 1) + total / k = total / k * k := by
    rw [← Nat.mul_succ, Nat.succ_eq_add_one, Nat.sub_add_cancel hk]
  have h2 : total / k * k + total % k = total := Nat.div_add_mod' total k
  rw [offset, size, if_pos rfl]
  omega

theorem offset_mono (h : i ≤ j) : offset total k i ≤ offset total k j := Nat.mul_le_mul_left _ h

variable (total) in
theorem ordered (hij : i < j) (hj : j < k) : offset total k i + size total k i ≤ offset total k j := by
  rw [size_of_lt (by omega), offset_add_div]
  exact offset_mono hij

variable (total) in
theorem offset_add_size_le (hj : j < k) : offset total k j + size total k j ≤ total := by
  have hlast := offset_add_size_last total (Nat.zero_lt_of_lt hj)
  rcases (show j ≤ k - 1 by omega).lt_or_eq with h | rfl
  · have := ordered total h (show k - 1 < k by omega)
    omega
  · omega

theorem size_last_pos (h : 0 < total) : 0 < size total k (k - 1) := by
  have hdm := Nat.div_add_mod total k
  rw [size, if_pos rfl]
  generalize total / k = q at hdm
  rcases Nat.eq_zero_or_pos q with rfl | hq <;> omega

variable (total) in
theorem exists_part (hk : 0 < k) (hi : i < total) :
    ∃ j < k, offset total k j ≤ i ∧ i < offset total k j + size total k j := by
  by_cases h : i < offset total k (k - 1)
  · have hq : 0 < total / k := by
      by_contra hq
      rw [offset, Nat.eq_zero_of_not_pos hq, Nat.zero_mul] at h
      exact Nat.not_lt_zero _ h
    have hj : i / (total / k) < k - 1 := Nat.div_lt_of_lt_mul h
    refine ⟨i / (total / k), by omega, Nat.mul_div_le .., ?_⟩
    rw [size_of_lt (by omega), offset]
    have := Nat.lt_mul_div_succ i hq
    rwa [Nat.mul_add_one] at this
  · refine ⟨k - 1, by omega, not_lt.mp h, ?_⟩
    rw [offset_add_size_last _ hk]
    exact hi

/-! ## Parts of any lengths -/

/-- Where part `i` begins, the lengths of the parts being given. -/
def sumTo (cnts : Nat → Nat) : Nat → Nat
  | 0 => 0
  | i + 1 => sumTo cnts i + cnts i

theorem sumTo_add_foldl (cnts : Nat → Nat) (a n : Nat) :
    sumTo cnts a + (List.range' a n).foldl (fun cnt i => cnt + cnts i) 0 = sumTo cnts (a + n) := by
  induction n with
  | zero => rfl
  | succ n ih =>
    rw [List.range'_concat, List.foldl_append, ← Nat.add_assoc a, sumTo, ← ih]
    simp only [List.foldl_cons, List.foldl_nil, Nat.one_mul, Nat.add_assoc]

variable (cnts : Nat → Nat)

theorem sumTo_mono (h : i ≤ j) : sumTo cnts i ≤ sumTo cnts j := by
  have := sumTo_add_foldl cnts i (j - i)
  rw [Nat.add_sub_cancel' h] at this
  omega

theorem sumTo_ordered (h : i < j) : sumTo cnts i + cnts i ≤ sumTo cnts j := sumTo_mono cnts (Nat.succ_le_of_lt h)

theorem exists_sumTo {x : Nat} (hx : x < sumTo cnts k) : ∃ b < k, sumTo cnts b ≤ x ∧ x < sumTo cnts b + cnts b := by
  induction k with
  | zero => exact absurd hx (Nat.not_lt_zero x)
  | succ k ih =>
    by_cases h : x < sumTo cnts k
    · obtain ⟨b, hb, hin⟩ := ih h
      exact ⟨b, by omega, hin⟩
    · exact ⟨k, Nat.lt_succ_self k, not_lt.mp h, hx⟩

theorem sumTo_add (a k : Nat) : sumTo cnts (a + k) = sumTo cnts a + sumTo (fun i => cnts (a + i)) k := by
  induction k with
  | zero => rfl
  | succ k ih => rw [← Nat.add_assoc, sumTo, ih, sumTo, Nat.add_assoc]

theorem sumTo_congr {cnts cnts' : Nat → Nat} (h : ∀ j < k, cnts j = cnts' j) : sumTo cnts k = sumTo cnts' k := by
  induction k with
  | zero => rfl
  | succ k ih => rw [sumTo, sumTo, ih fun j hj => h j (by omega), h k (Nat.lt_succ_self k)]

theorem sumTo_size (hj : j < k) : sumTo (size total k) j = offset total k j := by
  induction j with
  | zero => rfl
  | succ j ih => rw [sumTo, ih (by omega), size_of_lt hj, offset_add_div]

/-- How long part `j` is when the first parts get what is left over. -/
def evenSize (total k j : Nat) : Nat := if j < total % k then total / k + 1 else total / k

theorem sumTo_evenSize (total k j : Nat) : sumTo (evenSize total k) j = j * (total / k) + min j (total % k) := by
  induction j with
  | zero => rw [sumTo, Nat.zero_mul, Nat.zero_min]
  | succ j ih =>
    rw [sumTo, ih, evenSize, Nat.succ_mul]
    split <;> omega

theorem sumTo_evenSize_top (total : Nat) (hk : 0 < k) : sumTo (evenSize total k) k = total := by
  rw [sumTo_evenSize, Nat.min_eq_right ((Nat.mod_lt total hk).le)]
  exact Nat.div_add_mod total k

end Parts
