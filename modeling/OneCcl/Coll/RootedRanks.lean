import OneCcl.Coll.Numbering
import OneCcl.Reduction.Binomial
import OneCcl.Sched.Groups

/-!
# Ranks relative to a root

The rooted collectives number the ranks from the root on. The root has relative rank `0`.
-/

namespace OneCcl

open Reduction

/-- A communicator and a root in it. -/
structure Rooted where
  comm : CclComm
  root : Nat
  root_lt : root < comm.size

namespace Rooted

variable (A : Rooted)

abbrev n : Nat := A.comm.size

/-- The rank with a relative rank. -/
def rank (v : Nat) : Nat := rotUp A.n v A.root

/-- The relative rank of a rank. -/
def rel (r : Nat) : Nat := rotDown A.n r A.root

variable {r v : Nat}

theorem rank_lt (hv : v < A.n) : A.rank v < A.n := rotUp_lt hv A.root_lt

theorem rel_lt (hr : r < A.n) : A.rel r < A.n := rotDown_lt hr A.root_lt

theorem rel_rank (hv : v < A.n) : A.rel (A.rank v) = v := rotDown_rotUp hv A.root_lt

theorem rank_rel (hr : r < A.n) : A.rank (A.rel r) = r := rotUp_rotDown hr A.root_lt

theorem exists_rank (hr : r < A.n) : ∃ v < A.n, r = A.rank v := ⟨_, A.rel_lt hr, (A.rank_rel hr).symm⟩

theorem rank_zero : A.rank 0 = A.root := by
  rw [rank, rotUp, Nat.zero_add, if_pos A.root_lt]

theorem rel_root : A.rel A.root = 0 := by
  rw [rel, rotDown, if_pos (Nat.le_refl _), Nat.sub_self]

theorem rel_eq_zero : A.rel r = 0 ↔ r = A.root := by
  have hlt : A.root < A.n := A.root_lt
  unfold rel rotDown
  split <;> omega

theorem rank_sub {m : Nat} (hv : v < A.n) (hm : m ≤ v) :
    (if A.rank v < m then A.rank v + A.n - m else A.rank v - m) = A.rank (v - m) := by
  have hlt : A.root < A.n := A.root_lt
  unfold rank rotUp
  split <;> split <;> split <;> omega

theorem rank_add {m : Nat} (hm : v + m < A.n) :
    (if A.rank v + m ≥ A.n then A.rank v + m - A.n else A.rank v + m) = A.rank (v + m) := by
  have hlt : A.root < A.n := A.root_lt
  unfold rank rotUp
  split <;> split <;> split <;> omega

/-! ## The left neighbour -/

theorem left_rank (hv : v < A.n) (hpos : 0 < v) : rotDown A.n (A.rank v) 1 = A.rank (v - 1) := by
  have hlt : A.root < A.n := A.root_lt
  unfold rank rotUp rotDown
  split <;> split <;> split <;> omega

theorem left_root : rotDown A.n A.root 1 = A.rank (A.n - 1) := by
  have hlt : A.root < A.n := A.root_lt
  unfold rank rotUp rotDown
  split <;> split <;> omega

theorem rel_left {t : Nat} (hr : r < A.n) (ht : t + 1 < A.n) :
    rotDown A.n (A.rel (rotDown A.n r 1)) t = rotDown A.n (A.rel r) (t + 1) := by
  have h1 : 1 < A.n := by omega
  have hrel : A.rel (rotDown A.n r 1) = rotDown A.n (A.rel r) 1 := rotDown_comm hr h1 A.root_lt
  rw [hrel, rotDown_comm (A.rel_lt hr) h1 (by omega), rotDown_rotDown_one (A.rel_lt hr) (by omega)]

def numbering : Numbering A.n A.n where
  real := A.rank
  new r := some (A.rel r)
  real_lt v hv := A.rank_lt hv
  new_real v hv := congrArg some (A.rel_rank hv)
  of_new r hr v h := by
    cases h
    exact ⟨A.rel_lt hr, A.rank_rel hr⟩

/-! ## Rounds by relative rank -/

variable (f : Nat → Option EntryKind)

/-- What the ranks do, by their relative rank. -/
def kinds : KindsRound := fun r => ((A.numbering.on f r).join).toList

theorem kinds_of_lt (hr : r < A.n) : A.kinds f r = (f (A.rel r)).toList := by
  rw [kinds, Numbering.on, if_pos hr]
  rfl

theorem kinds_rank (hv : v < A.n) : A.kinds f (A.rank v) = (f v).toList := by
  rw [A.kinds_of_lt f (A.rank_lt hv), A.rel_rank hv]

theorem kinds_of_le (hr : A.n ≤ r) : A.kinds f r = [] := by
  rw [kinds, Numbering.on_of_le _ f hr]
  rfl

theorem length_kinds_le (r : Nat) : (A.kinds f r).length ≤ 1 := Option.length_toList_le

variable {f}

theorem kinds_local_good (h : ∀ v, ∀ k ∈ f v, k.isLocal = true) : KindsGood (A.kinds f) A.n := by
  refine kindsGood_local (fun r hr => A.kinds_of_le f hr) (A.length_kinds_le f) fun r k hk => ?_
  rcases lt_or_ge r A.n with hr | hr
  · rw [A.kinds_of_lt f hr, Option.mem_toList] at hk
    exact h _ k hk
  · rw [A.kinds_of_le f hr] at hk
    cases hk

variable (f) in
theorem kinds_beside (r : Nat) : ([A.kinds f].flatMap (· r)).Pairwise EntryKind.Beside := by
  rw [List.flatMap_singleton]
  exact pairwise_of_length_le_one (A.length_kinds_le f r)

end Rooted

end OneCcl
