import OneCcl.Coll.Numbering

/-!
# The ranks of Rabenseifner's reduce

Of each pair of the first `2 * rem` ranks the even one takes part in the reduce-scatter, unlike in the allreduce. In
the gather a root that was folded out takes the place of new rank `0`. Both are numberings of a power of two of
ranks.

The gather is along a binomial tree. In step `k` the ranks that are still there agree with the root above bit `k`, and
of two partners one differs from it in bit `k` (`gather_active`): it sends what it has and leaves.
-/

namespace OneCcl

open Reduction

/-! ## Even ranks -/

/-- The real rank of a new rank: `(new_dst < rem) ? new_dst * 2 : new_dst + rem`. -/
def evenRank (rem newDst : Nat) : Nat := if newDst < rem then newDst * 2 else newDst + rem

/-- The new rank of a rank, none for one that is folded out. -/
def evenNew (rem rank : Nat) : Option Nat :=
  if rank < 2 * rem then if rank % 2 ≠ 0 then none else some (rank / 2) else some (rank - rem)

theorem evenNew_evenRank (rem v : Nat) : evenNew rem (evenRank rem v) = some v := by
  unfold evenNew evenRank
  split
  next h =>
    rw [if_pos (by omega), if_neg (by omega)]
    exact congrArg some (by omega)
  next h =>
    rw [if_neg (by omega)]
    exact congrArg some (by omega)

variable {rem v root : Nat}

theorem evenRank_of_evenNew {rank : Nat} (h : evenNew rem rank = some v) : evenRank rem v = rank := by
  unfold evenNew at h
  unfold evenRank
  split at h
  next h1 =>
    split at h
    next => cases h
    next h2 =>
      cases h
      rw [if_pos (by omega)]
      omega
  next h1 =>
    cases h
    rw [if_neg (by omega)]
    omega

theorem evenRank_lt (comm : CclComm) (hv : v < 2 ^ comm.log) : evenRank comm.rem v < comm.size := by
  rw [comm.size_eq]
  unfold evenRank
  split <;> omega

theorem lt_of_evenRank_lt (comm : CclComm) (h : evenRank comm.rem v < comm.size) : v < 2 ^ comm.log := by
  have := comm.rem_lt
  rw [comm.size_eq] at h
  unfold evenRank at h
  split at h <;> omega

/-- The ranks that take part in the reduce-scatter. -/
def evenNumbering (comm : CclComm) : Numbering comm.size (2 ^ comm.log) where
  real := evenRank comm.rem
  new := evenNew comm.rem
  real_lt _ hv := evenRank_lt comm hv
  new_real v _ := evenNew_evenRank comm.rem v
  of_new r hr v hv := by
    have hreal := evenRank_of_evenNew hv
    exact ⟨lt_of_evenRank_lt comm (hreal ▸ hr), hreal⟩

/-! ## The root -/

def RootOut (rem root : Nat) : Prop := root < 2 * rem ∧ root % 2 ≠ 0

instance (rem root : Nat) : Decidable (RootOut rem root) := inferInstanceAs (Decidable (_ ∧ _))

/-- The real rank of a new rank in the gather, where the root may be in the place of new rank `0`. -/
def gatherRank (rem root v : Nat) : Nat := if v = 0 ∧ RootOut rem root then root else evenRank rem v

def gatherNew (rem root rank : Nat) : Option Nat :=
  if RootOut rem root then
    if rank = root then some 0 else if evenNew rem rank = some 0 then none else evenNew rem rank
  else evenNew rem rank

/-- The new rank of the root in the gather. -/
def newRoot (rem root : Nat) : Nat :=
  if root < 2 * rem then if root % 2 ≠ 0 then 0 else root / 2 else root - rem

theorem RootOut.evenRank_ne (h : RootOut rem root) (v : Nat) : evenRank rem v ≠ root := by
  obtain ⟨h1, h2⟩ := h
  unfold evenRank
  split <;> omega

theorem gatherRank_zero (h : RootOut rem root) : gatherRank rem root 0 = root := if_pos ⟨rfl, h⟩

theorem gatherRank_of_not (h : ¬ (v = 0 ∧ RootOut rem root)) : gatherRank rem root v = evenRank rem v := if_neg h

/-- The ranks that take part in the gather. -/
def gatherNumbering (comm : CclComm) {root : Nat} (hroot : root < comm.size) :
    Numbering comm.size (2 ^ comm.log) where
  real := gatherRank comm.rem root
  new := gatherNew comm.rem root
  real_lt v hv := by
    unfold gatherRank
    split
    · exact hroot
    · exact evenRank_lt comm hv
  new_real v hv := by
    unfold gatherNew
    by_cases h : RootOut comm.rem root
    · rw [if_pos h]
      by_cases hv0 : v = 0
      · rw [hv0, gatherRank_zero h, if_pos rfl]
      · rw [gatherRank_of_not (fun hc => hv0 hc.1), if_neg (h.evenRank_ne v), evenNew_evenRank,
          if_neg (fun hc => hv0 (Option.some.inj hc))]
    · rw [gatherRank_of_not (fun hc => h hc.2), if_neg h, evenNew_evenRank]
  of_new r hr v hv := by
    unfold gatherNew at hv
    by_cases h : RootOut comm.rem root
    · rw [if_pos h] at hv
      split at hv
      next hroot' =>
        cases hv
        exact ⟨Nat.two_pow_pos _, by rw [gatherRank_zero h, hroot']⟩
      next =>
        split at hv
        next => cases hv
        next hne =>
          have hreal := evenRank_of_evenNew hv
          refine ⟨lt_of_evenRank_lt comm (hreal ▸ hr), ?_⟩
          rw [gatherRank_of_not (fun hc => hne (hc.1 ▸ hv)), hreal]
    · rw [if_neg h] at hv
      have hreal := evenRank_of_evenNew hv
      refine ⟨lt_of_evenRank_lt comm (hreal ▸ hr), ?_⟩
      rw [gatherRank_of_not (fun hc => h hc.2), hreal]

theorem newRoot_lt (comm : CclComm) (hroot : root < comm.size) : newRoot comm.rem root < 2 ^ comm.log := by
  have := comm.size_eq
  have := comm.rem_lt
  unfold newRoot
  split
  · split <;> omega
  · omega

theorem gatherRank_newRoot (rem root : Nat) : gatherRank rem root (newRoot rem root) = root := by
  unfold newRoot
  by_cases h : root < 2 * rem
  · by_cases h2 : root % 2 ≠ 0
    · rw [if_pos h, if_pos h2, gatherRank_zero ⟨h, h2⟩]
    · rw [if_pos h, if_neg h2, gatherRank_of_not (fun hc => h2 hc.2.2), evenRank, if_pos (by omega)]
      omega
  · rw [if_neg h, gatherRank_of_not (fun hc => h hc.2.1), evenRank, if_neg (by omega)]
    omega

/-- **Who is still there**: of two partners in step `k` whose numbers agree with the root's above bit `k`, one
agrees with it in bit `k` as well, and the other does not. -/
theorem gather_active {k : Nat} (h : v / 2 ^ (k + 1) = root / 2 ^ (k + 1)) :
    (v ^^^ 2 ^ k) / 2 ^ k = root / 2 ^ k ↔ ¬ v / 2 ^ k = root / 2 ^ k := by
  have hcases := (div_two_pow_succ_eq_iff root v k).mp h.symm
  have hdisj := Finset.disjoint_left.mp (block_disjoint k v) (mem_block.mpr (rfl : v / 2 ^ k = v / 2 ^ k))
  rw [mem_block] at hdisj
  constructor
  · intro h1 h2
    exact hdisj (h2.trans h1.symm)
  · intro h1
    rcases hcases with h2 | h2
    · exact absurd h2.symm h1
    · exact h2.symm

end OneCcl
