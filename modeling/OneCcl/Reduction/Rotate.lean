import OneCcl.Reduction.Over

/-!
# Rotations of a ring

In round `k` a member of a ring of `n` deals with the member `k` further on (`rotUp`) or `k` further back
(`rotDown`). The two are inverse to each other, so that what goes up in a round is expected from below. Over the
rounds `0, …, n - 1` a member meets everybody once: `rotTo n r k` is whom `r` has met after round `k`.
-/

namespace Reduction

/-- The member `k` further on. -/
def rotUp (n r k : Nat) : Nat := if r + k < n then r + k else r + k - n

/-- The member `k` further back. -/
def rotDown (n r k : Nat) : Nat := if k ≤ r then r - k else r + n - k

variable {n r k : Nat}

theorem mod_rotUp (hr : r < n) (hk : k < n) : (r + k) % n = rotUp n r k := by
  unfold rotUp
  split
  next h => exact Nat.mod_eq_of_lt h
  next h =>
    rw [Nat.mod_eq_sub_mod (not_lt.mp h)]
    exact Nat.mod_eq_of_lt (by omega)

theorem mod_rotDown (hr : r < n) (hk : k < n) : (r + n - k) % n = rotDown n r k := by
  unfold rotDown
  split
  next h =>
    rw [show r + n - k = r - k + n by omega, Nat.add_mod_right]
    exact Nat.mod_eq_of_lt (by omega)
  next h => exact Nat.mod_eq_of_lt (by omega)

theorem rotUp_lt (hr : r < n) (hk : k < n) : rotUp n r k < n := by
  unfold rotUp
  split <;> omega

theorem rotDown_lt (hr : r < n) (hk : k < n) : rotDown n r k < n := by
  unfold rotDown
  split <;> omega

theorem rotDown_zero (n r : Nat) : rotDown n r 0 = r := by
  rw [rotDown, if_pos (Nat.zero_le r), Nat.sub_zero]

theorem rotDown_rotUp (hr : r < n) (hk : k < n) : rotDown n (rotUp n r k) k = r := by
  unfold rotUp rotDown
  split <;> split <;> omega

theorem rotUp_rotDown (hr : r < n) (hk : k < n) : rotUp n (rotDown n r k) k = r := by
  unfold rotUp rotDown
  split <;> split <;> omega

theorem rotUp_ne (hk0 : 0 < k) (hk : k < n) : rotUp n r k ≠ r := by
  unfold rotUp
  split <;> omega

theorem rotDown_ne (hk0 : 0 < k) (hk : k < n) : rotDown n r k ≠ r := by
  unfold rotDown
  split <;> omega

variable {k' : Nat}

theorem rotUp_inj (hk : k < n) (hk' : k' < n) (h : rotUp n r k = rotUp n r k') : k = k' := by
  unfold rotUp at h
  split at h <;> split at h <;> omega

theorem rotDown_inj (hk : k < n) (hk' : k' < n) (h : rotDown n r k = rotDown n r k') : k = k' := by
  unfold rotDown at h
  split at h <;> split at h <;> omega

theorem rotDown_comm (hr : r < n) {a b : Nat} (ha : a < n) (hb : b < n) :
    rotDown n (rotDown n r a) b = rotDown n (rotDown n r b) a := by
  unfold rotDown
  by_cases h1 : a ≤ r <;> by_cases h2 : b ≤ r <;> simp only [h1, h2, if_true, if_false] <;> split <;> split <;> omega

theorem rotDown_rotDown_one (hr : r < n) (hk : k < n) : rotDown n (rotDown n r k) 1 = rotDown n r (k + 1) := by
  unfold rotDown
  split <;> split <;> split <;> omega

theorem rotDown_succ_rotUp (hr : r < n) (hk : k + 1 < n) : rotDown n (rotUp n r 1) (k + 1) = rotDown n r k := by
  unfold rotUp rotDown
  split <;> split <;> split <;> omega

theorem rotDown_one_rotDown (hr : r < n) (hk : k + 1 < n) : rotDown n (rotDown n r 1) k = rotDown n r (k + 1) := by
  rw [rotDown_comm hr (by omega) (by omega), rotDown_rotDown_one hr (by omega)]

theorem exists_rotDown (hr : r < n) {q : Nat} (hq : q < n) : ∃ k < n, q = rotDown n r k := by
  refine ⟨rotDown n r q, rotDown_lt hr hq, ?_⟩
  by_cases h : q ≤ r
  · rw [show rotDown n r q = r - q from if_pos h, rotDown]
    split <;> omega
  · rw [show rotDown n r q = r + n - q from if_neg h, rotDown]
    split <;> omega

/-- Whom `r` has met after round `k`. -/
def rotTo (n r : Nat) : Nat → Finset Nat
  | 0 => {r}
  | k + 1 => rotTo n r k ∪ {rotUp n r (k + 1)}

theorem mem_rotTo (hr : r < n) (hk : k < n) (u : Nat) :
    u ∈ rotTo n r k ↔ u < n ∧ ((r ≤ u ∧ u ≤ r + k) ∨ (u < r ∧ u + n ≤ r + k)) := by
  induction k with
  | zero =>
    rw [rotTo, Finset.mem_singleton]
    omega
  | succ k ih =>
    rw [rotTo, Finset.mem_union, Finset.mem_singleton, ih (by omega)]
    unfold rotUp
    split <;> omega

theorem rotTo_top (hr : r < n) : rotTo n r (n - 1) = Finset.range n := by
  ext u
  rw [mem_rotTo hr (by omega), Finset.mem_range]
  omega

variable {α : Type} {op : α → α → α} [Std.Commutative op] [Std.Associative op]

/-- **One round**: what was reduced so far, and the value of the member met. -/
theorem Reduces.rot_step {f : Nat → α} {x : α} (hr : r < n) (hk : k + 1 < n) (hx : Reduces op f (rotTo n r k) x) :
    Reduces op f (rotTo n r (k + 1)) (op x (f (rotUp n r (k + 1)))) := by
  refine hx.union (reduces_singleton f _) ?_
  rw [Finset.disjoint_singleton_right, mem_rotTo hr (by omega)]
  unfold rotUp
  split <;> omega

end Reduction
