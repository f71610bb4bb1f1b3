import Mathlib.Data.Nat.Bitwise
import Mathlib.Order.Interval.Finset.Nat
import OneCcl.Reduction.Over

/-!
# Recursive doubling

On the numbers below a power of two, `v ^^^ 2 ^ k` is the partner of `v` in step `k`. Partners exchange what
they have: after `k` steps a number knows everything of its **block**, the numbers that agree with it
above bit `k` (`block_succ`).

When there are `rem` more numbers than the power of two, the first `2 * rem` of them are paired up first
(`folded`), and each pair goes on as one.
-/

namespace Reduction

open Finset

theorem xor_two_pow (v k : Nat) : v ^^^ 2 ^ k = if v / 2 ^ k % 2 = 0 then v + 2 ^ k else v - 2 ^ k := by
  have hpos : 0 < 2 ^ k := Nat.two_pow_pos k
  have hdiv : (v ^^^ 2 ^ k) / 2 ^ k = v / 2 ^ k ^^^ 1 := by
    rw [Nat.xor_div_two_pow, Nat.div_self hpos]
  have hmod : (v ^^^ 2 ^ k) % 2 ^ k = v % 2 ^ k := by
    rw [Nat.xor_mod_two_pow, Nat.mod_self, Nat.xor_zero]
  have hone : v / 2 ^ k ^^^ 1 = if v / 2 ^ k % 2 = 0 then v / 2 ^ k + 1 else v / 2 ^ k - 1 := by
    generalize v / 2 ^ k = q
    have h1 : (q ^^^ 1) / 2 = q / 2 := by rw [Nat.xor_div_two]; exact Nat.xor_zero _
    have h2 : (q ^^^ 1) % 2 = 1 ↔ ¬ q % 2 = 1 := by
      rw [Nat.xor_mod_two_eq_one]
      simp
    split <;> omega
  have hw := Nat.div_add_mod (v ^^^ 2 ^ k) (2 ^ k)
  have hv := Nat.div_add_mod v (2 ^ k)
  rw [hdiv, hmod, hone] at hw
  rw [← hw]
  split
  next h =>
    rw [Nat.mul_add, Nat.mul_one]
    omega
  next h =>
    have h1 : 1 ≤ v / 2 ^ k := Nat.pos_of_ne_zero fun h0 => h (by rw [h0])
    rw [Nat.mul_sub, Nat.mul_one]
    have : 2 ^ k ≤ 2 ^ k * (v / 2 ^ k) := Nat.le_mul_of_pos_right _ h1
    omega

theorem lt_xor_two_pow_iff (v k : Nat) : v < v ^^^ 2 ^ k ↔ v / 2 ^ k % 2 = 0 := by
  have hpos : 0 < 2 ^ k := Nat.two_pow_pos k
  rw [xor_two_pow]
  split
  next h => exact ⟨fun _ => h, fun _ => by omega⟩
  next h => exact ⟨fun h' => by omega, fun h' => absurd h' h⟩

theorem xor_two_pow_ne (v k : Nat) : v ^^^ 2 ^ k ≠ v := by
  have hpos : 0 < 2 ^ k := Nat.two_pow_pos k
  intro h
  have h1 := xor_two_pow v k
  have h2 := Nat.div_mul_le_self v (2 ^ k)
  rw [h] at h1
  split at h1
  · omega
  next hq =>
    have h3 : 1 ≤ v / 2 ^ k := Nat.pos_of_ne_zero fun h0 => hq (by rw [h0])
    have : 2 ^ k ≤ v / 2 ^ k * 2 ^ k := Nat.le_mul_of_pos_left _ h3
    omega

variable {v k K u rem m : Nat}

theorem xor_two_pow_lt (hv : v < 2 ^ K) (hk : k < K) : v ^^^ 2 ^ k < 2 ^ K :=
  Nat.xor_lt_two_pow hv (Nat.pow_lt_pow_right (by decide) hk)

theorem xor_two_pow_div (v k : Nat) : (v ^^^ 2 ^ k) / 2 ^ (k + 1) = v / 2 ^ (k + 1) := by
  rw [Nat.xor_div_two_pow, Nat.div_eq_of_lt (Nat.pow_lt_pow_right (by decide) (Nat.lt_succ_self k)),
    Nat.xor_zero]

theorem xor_two_pow_mod (v k : Nat) : (v ^^^ 2 ^ k) % 2 ^ k = v % 2 ^ k := by
  rw [Nat.xor_mod_two_pow, Nat.mod_self, Nat.xor_zero]

/-! ## Blocks -/

/-- The numbers that agree with `v` above bit `k`. -/
def block (k v : Nat) : Finset Nat := Finset.Ico (v / 2 ^ k * 2 ^ k) ((v / 2 ^ k + 1) * 2 ^ k)

theorem mem_block : u ∈ block k v ↔ u / 2 ^ k = v / 2 ^ k := by
  rw [block, mem_Ico, Nat.div_eq_iff (Nat.two_pow_pos k)]
  have hpos := Nat.two_pow_pos k
  rw [Nat.add_mul, Nat.one_mul]
  omega

theorem block_zero (v : Nat) : block 0 v = {v} := by
  ext u
  rw [mem_block, mem_singleton, Nat.pow_zero, Nat.div_one, Nat.div_one]

theorem block_top (hv : v < 2 ^ K) : block K v = range (2 ^ K) := by
  ext u
  rw [mem_block, mem_range, Nat.div_eq_of_lt hv]
  exact Nat.div_eq_zero_iff_lt (Nat.two_pow_pos K)

theorem div_two_pow_succ_eq_iff (u v k : Nat) :
    u / 2 ^ (k + 1) = v / 2 ^ (k + 1) ↔ u / 2 ^ k = v / 2 ^ k ∨ u / 2 ^ k = (v ^^^ 2 ^ k) / 2 ^ k := by
  have hx : (v ^^^ 2 ^ k) / 2 ^ k / 2 = v / 2 ^ k / 2 := by
    rw [Nat.div_div_eq_div_mul, Nat.div_div_eq_div_mul, ← Nat.pow_succ]
    exact xor_two_pow_div v k
  have hne : (v ^^^ 2 ^ k) / 2 ^ k ≠ v / 2 ^ k := by
    intro h
    refine xor_two_pow_ne v k ?_
    rw [← Nat.div_add_mod (v ^^^ 2 ^ k) (2 ^ k), h, xor_two_pow_mod, Nat.div_add_mod]
  rw [Nat.pow_succ, ← Nat.div_div_eq_div_mul, ← Nat.div_div_eq_div_mul]
  omega

theorem block_succ (k v : Nat) : block (k + 1) v = block k v ∪ block k (v ^^^ 2 ^ k) := by
  ext u
  rw [mem_union, mem_block, mem_block, mem_block]
  exact div_two_pow_succ_eq_iff u v k

theorem block_disjoint (k v : Nat) : Disjoint (block k v) (block k (v ^^^ 2 ^ k)) := by
  refine disjoint_left.mpr fun u hu hu' => ?_
  rw [mem_block] at hu hu'
  refine xor_two_pow_ne v k ?_
  rw [← Nat.div_add_mod (v ^^^ 2 ^ k) (2 ^ k), ← hu', hu, xor_two_pow_mod, Nat.div_add_mod]

variable {α : Type} {op : α → α → α} [Std.Commutative op] [Std.Associative op]

/-- **A step of doubling**: what a number knows and what its partner knows is what both know next. -/
theorem Reduces.double {f : Nat → α} {k v : Nat} {x y : α} (hx : Reduces op f (block k v) x)
    (hy : Reduces op f (block k (v ^^^ 2 ^ k)) y) : Reduces op f (block (k + 1) v) (op x y) := by
  rw [block_succ]
  exact hx.union hy (block_disjoint k v)

/-! ## Folding onto a power of two -/

/-- With `rem` numbers more than a power of two, the first `2 * rem` are taken in pairs. -/
def folded (rem v : Nat) : Finset Nat := if v < rem then {2 * v, 2 * v + 1} else {v + rem}

theorem mem_folded : u ∈ folded rem v ↔ (v < rem ∧ (u = 2 * v ∨ u = 2 * v + 1)) ∨ (rem ≤ v ∧ u = v + rem) := by
  unfold folded
  split
  next h => simp only [mem_insert, mem_singleton]; omega
  next h => simp only [mem_singleton]; omega

theorem folded_disjoint {w : Nat} (h : v ≠ w) : Disjoint (folded rem v) (folded rem w) := by
  refine disjoint_left.mpr fun u hu hu' => ?_
  rw [mem_folded] at hu hu'
  omega

theorem folded_biUnion (h : rem ≤ m) : (range m).biUnion (folded rem) = range (m + rem) := by
  ext u
  simp only [mem_biUnion, mem_range, mem_folded]
  constructor
  · rintro ⟨v, hv, h⟩
    omega
  · intro hu
    rcases lt_or_ge u (2 * rem) with h2 | h2
    · exact ⟨u / 2, by omega, .inl ⟨by omega, by omega⟩⟩
    · exact ⟨u - rem, by omega, .inr ⟨by omega, by omega⟩⟩

theorem Reduces.unfold {f g : Nat → α} {x : α} (hrem : rem ≤ m)
    (hx : Reduces op g (range m) x) (hg : ∀ v < m, Reduces op f (folded rem v) (g v)) :
    Reduces op f (range (m + rem)) x := by
  rw [← folded_biUnion hrem]
  exact hx.biUnion (fun v hv => hg v (mem_range.mp hv)) fun v _ w _ h => folded_disjoint h

theorem reduces_pair (f : Nat → α) (hv : v < rem) : Reduces op f (folded rem v) (op (f (2 * v + 1)) (f (2 * v))) := by
  have h : folded rem v = {2 * v + 1} ∪ {2 * v} := by
    ext u
    simp only [mem_folded, mem_union, mem_singleton]
    omega
  rw [h]
  exact (reduces_singleton f _).union (reduces_singleton f _) (by simp)

theorem reduces_pair' (f : Nat → α) (hv : v < rem) : Reduces op f (folded rem v) (op (f (2 * v)) (f (2 * v + 1))) := by
  have hcomm : op (f (2 * v)) (f (2 * v + 1)) = op (f (2 * v + 1)) (f (2 * v)) := Std.Commutative.comm _ _
  rw [hcomm]
  exact reduces_pair f hv

theorem reduces_single (f : Nat → α) (hv : rem ≤ v) : Reduces op f (folded rem v) (f (v + rem)) := by
  rw [folded, if_neg hv.not_gt]
  exact reduces_singleton f _

end Reduction
