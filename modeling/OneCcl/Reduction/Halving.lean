import OneCcl.Reduction.Doubling

/-!
# Recursive halving

The counterpart of recursive doubling. There are `2 ^ K` slots. In step `k` a number keeps one half of the slots
it still has and gives the other half to the number that differs in bit `k`: the lower half if its bit is clear.
`windowStart K k v` is where the slots of `v` start after `k` steps; there are `2 ^ (K - k)` of them.

Two numbers that differ in bit `k` have the same slots before step `k`, and after it one has the lower and
one the upper half (`windowStart_halves`): this is all a protocol on top needs, in both directions.
-/

namespace Reduction

/-- Where the slots of `v` start after `k` steps. -/
def windowStart (K : Nat) : Nat → Nat → Nat
  | 0, _ => 0
  | k + 1, v => windowStart K k v + if v / 2 ^ k % 2 = 0 then 0 else 2 ^ (K - 1 - k)

theorem xor_two_pow_bit_of_lt {i k : Nat} (h : i < k) (v : Nat) : (v ^^^ 2 ^ k) / 2 ^ i % 2 = v / 2 ^ i % 2 := by
  have hbit := Nat.testBit_xor v (2 ^ k) i
  rw [Nat.testBit_two_pow_of_ne h.ne', Bool.xor_false, Nat.testBit_eq_decide_div_mod_eq,
    Nat.testBit_eq_decide_div_mod_eq, decide_eq_decide] at hbit
  omega

theorem xor_two_pow_bit (v k : Nat) : (v ^^^ 2 ^ k) / 2 ^ k % 2 = 0 ↔ ¬ v / 2 ^ k % 2 = 0 := by
  rw [← lt_xor_two_pow_iff, ← lt_xor_two_pow_iff, Nat.xor_xor_cancel_right]
  have := xor_two_pow_ne v k
  omega

theorem windowStart_xor {K j k : Nat} (h : j ≤ k) (v : Nat) : windowStart K j (v ^^^ 2 ^ k) = windowStart K j v := by
  induction j with
  | zero => rfl
  | succ j ih =>
    unfold windowStart
    rw [ih (by omega), xor_two_pow_bit_of_lt h]

theorem two_pow_sub_eq {K k : Nat} (h : k < K) : 2 ^ (K - k) = 2 * 2 ^ (K - (k + 1)) := by
  rw [← Nat.pow_succ', show (K - (k + 1)).succ = K - k by omega]

/-- **The two sides of step `k` halve the slots they have**: the smaller number keeps the lower half. -/
theorem windowStart_halves (K k v : Nat) : (v < v ^^^ 2 ^ k ∧ windowStart K (k + 1) v = windowStart K k v ∧
      windowStart K (k + 1) (v ^^^ 2 ^ k) = windowStart K k v + 2 ^ (K - (k + 1))) ∨
    (v ^^^ 2 ^ k < v ∧ windowStart K (k + 1) v = windowStart K k v + 2 ^ (K - (k + 1)) ∧
      windowStart K (k + 1) (v ^^^ 2 ^ k) = windowStart K k v) := by
  have hbit := xor_two_pow_bit v k
  have hlt := lt_xor_two_pow_iff v k
  have hne := xor_two_pow_ne v k
  have hstep : ∀ u, windowStart K (k + 1) u =
      windowStart K k u + if u / 2 ^ k % 2 = 0 then 0 else 2 ^ (K - (k + 1)) := by
    intro u
    rw [windowStart, show K - 1 - k = K - (k + 1) by omega]
  rw [hstep, hstep, windowStart_xor (Nat.le_refl k)]
  by_cases h : v / 2 ^ k % 2 = 0
  · rw [if_pos h, if_neg (fun hc => hbit.mp hc h)]
    exact .inl ⟨hlt.mpr h, rfl, rfl⟩
  · rw [if_neg h, if_pos (hbit.mpr h)]
    have hle : ¬ v < v ^^^ 2 ^ k := fun hc => h (hlt.mp hc)
    exact .inr ⟨by omega, rfl, rfl⟩

theorem windowStart_zero_right (K k : Nat) : windowStart K k 0 = 0 := by
  induction k with
  | zero => rfl
  | succ k ih => rw [windowStart, ih, Nat.zero_div, if_pos rfl]

end Reduction
