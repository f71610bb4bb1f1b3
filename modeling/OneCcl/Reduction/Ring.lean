import OneCcl.Reduction.Over

/-!
# Partial results that travel a ring

The members `0, …, n - 1` of a ring pass a partial result on, each to the next, and each adds its own value.
`ringTo n k r` is the set of the `k + 1` members that end at `r`: what has been added when the result has made
`k` steps and is at `r`. After `n - 1` steps that is everybody, wherever the result is (`ringTo_top`).
-/

namespace Reduction

/-- The member before `r` in a ring of `n`. -/
def ringPrev (n r : Nat) : Nat := if r = 0 then n - 1 else r - 1

/-- The member after `r` in a ring of `n`. -/
def ringNext (n r : Nat) : Nat := if r + 1 = n then 0 else r + 1

variable {n r : Nat}

theorem ringPrev_lt (h : r < n) : ringPrev n r < n := by
  unfold ringPrev
  split <;> omega

theorem ringNext_lt (h : r < n) : ringNext n r < n := by
  unfold ringNext
  split <;> omega

theorem ringPrev_ringNext (n r : Nat) : ringPrev n (ringNext n r) = r := by
  unfold ringPrev ringNext
  split <;> split <;> omega

theorem ringNext_ringPrev (h : r < n) : ringNext n (ringPrev n r) = r := by
  unfold ringPrev ringNext
  split <;> split <;> omega

theorem mod_ringPrev (h : r < n) : (n + r - 1) % n = ringPrev n r := by
  unfold ringPrev
  split
  next h0 =>
    rw [h0, Nat.add_zero]
    exact Nat.mod_eq_of_lt (by omega)
  next h0 =>
    rw [show n + r - 1 = r - 1 + n by omega, Nat.add_mod_right]
    exact Nat.mod_eq_of_lt (by omega)

theorem mod_ringNext (h : r < n) : (n + r + 1) % n = ringNext n r := by
  unfold ringNext
  rw [show n + r + 1 = r + 1 + n by omega, Nat.add_mod_right]
  split
  next h0 => rw [h0, Nat.mod_self]
  next h0 => exact Nat.mod_eq_of_lt (by omega)

/-- The `k + 1` members that end at `r`. -/
def ringTo (n : Nat) : Nat → Nat → Finset Nat
  | 0, r => {r}
  | k + 1, r => insert r (ringTo n k (ringPrev n r))

theorem mem_ringTo {k : Nat} (hr : r < n) (hk : k < n) (u : Nat) :
    u ∈ ringTo n k r ↔ u < n ∧ ((u ≤ r ∧ r ≤ u + k) ∨ (r < u ∧ r + n ≤ u + k)) := by
  induction k generalizing r with
  | zero =>
    rw [ringTo, Finset.mem_singleton]
    omega
  | succ k ih =>
    rw [ringTo, Finset.mem_insert, ih (ringPrev_lt hr) (by omega)]
    unfold ringPrev
    split <;> omega

theorem ringTo_top (hr : r < n) : ringTo n (n - 1) r = Finset.range n := by
  ext u
  rw [mem_ringTo hr (by omega), Finset.mem_range]
  omega

variable {α : Type} {op : α → α → α} [Std.Commutative op] [Std.Associative op]

/-- **One step of the ring**: the partial result of the member before, and one's own value. -/
theorem Reduces.ring_step {f : Nat → α} {k : Nat} {x : α} (hr : r < n) (hk : k + 1 < n)
    (hx : Reduces op f (ringTo n k (ringPrev n r)) x) : Reduces op f (ringTo n (k + 1) r) (op (f r) x) := by
  have hdisj : Disjoint {r} (ringTo n k (ringPrev n r)) := by
    rw [Finset.disjoint_singleton_left, mem_ringTo (ringPrev_lt hr) (by omega)]
    unfold ringPrev
    split <;> omega
  have h := (reduces_singleton f r).union hx hdisj
  rwa [← Finset.insert_eq] at h

end Reduction
