import Mathlib.Algebra.Order.Ring.Int
import Mathlib.Data.Nat.Basic

/-!
# Communicators

What the collectives read of a `ccl_comm`: its size, a positive `int`, and the power of two next below
it, which the communicator computes once with `ccl::utils::pof2`.
-/

namespace OneCcl

/-- The loop of `pof2`: double while not above the number. -/
def pof2Loop (number : Nat) : Nat → Nat → Nat
  | 0, pof2 => pof2
  | fuel + 1, pof2 => if pof2 ≤ number then pof2Loop number fuel (pof2 <<< 1) else pof2

/-- `ccl::utils::pof2` on a `size_t`: a number with its last bit set is answered at once, since doubling
past it would overflow. -/
def pof2 (number : Nat) : Nat :=
  let lastBitMask := 1 <<< 63
  if number &&& lastBitMask ≠ 0 then lastBitMask else pof2Loop number 64 1 >>> 1

variable {number : Nat}

theorem pof2Loop_eq {k fuel : Nat} (hlt : number < 2 ^ (k + fuel)) (hle : 2 ^ k ≤ number) :
    pof2Loop number fuel (2 ^ k) = 2 ^ (number.log2 + 1) := by
  have hne : number ≠ 0 := (Nat.lt_of_lt_of_le (Nat.two_pow_pos k) hle).ne'
  induction fuel generalizing k with
  | zero => exact absurd hlt hle.not_gt
  | succ fuel ih =>
    rw [pof2Loop, if_pos hle, Nat.shiftLeft_eq, Nat.pow_one, ← Nat.pow_succ]
    rcases lt_or_ge number (2 ^ (k + 1)) with h | h
    · -- the next round finds the power above the number
      have hlog : number.log2 = k :=
        le_antisymm (Nat.le_of_lt_succ ((Nat.log2_lt hne).mpr h)) ((Nat.le_log2 hne).mpr hle)
      rw [hlog]
      cases fuel with
      | zero => rfl
      | succ fuel => rw [pof2Loop, if_neg h.not_ge]
    · exact ih (k := k + 1) (by rwa [Nat.add_assoc, Nat.add_comm 1]) h

theorem and_lastBitMask (hlt : number < 2 ^ 64) : number &&& 1 <<< 63 ≠ 0 ↔ 2 ^ 63 ≤ number := by
  constructor
  · intro h
    by_contra hlow
    refine h (Nat.eq_of_testBit_eq fun i => ?_)
    rw [Nat.testBit_and, Nat.zero_testBit, Nat.one_shiftLeft, Nat.testBit_two_pow]
    by_cases hi : 63 = i
    · rw [← hi, Nat.testBit_lt_two_pow (lt_of_not_ge hlow), Bool.false_and]
    · rw [decide_eq_false hi, Bool.and_false]
  · intro h hzero
    have hbit : number.testBit 63 = true := by
      rw [Nat.testBit_eq_decide_div_mod_eq, decide_eq_true_eq]
      omega
    have hboth := congrArg (Nat.testBit · 63) hzero
    rw [Nat.testBit_and, hbit, Nat.one_shiftLeft, Nat.testBit_two_pow_self, Nat.zero_testBit] at hboth
    cases hboth

/-- **`pof2` is the power of two next below.** -/
theorem pof2_eq_of_lt (hpos : 0 < number) (hlt : number < 2 ^ 64) : pof2 number = 2 ^ number.log2 := by
  unfold pof2
  dsimp only
  split
  · next h =>
    have hne := hpos.ne'
    have hlog : number.log2 = 63 := le_antisymm (Nat.le_of_lt_succ ((Nat.log2_lt hne).mpr hlt))
      ((Nat.le_log2 hne).mpr ((and_lastBitMask hlt).mp h))
    rw [hlog, Nat.one_shiftLeft]
  · have hloop : pof2Loop number 64 (2 ^ 0) = 2 ^ (number.log2 + 1) := pof2Loop_eq hlt hpos
    rw [Nat.pow_zero] at hloop
    rw [hloop, Nat.shiftRight_eq_div_pow, Nat.pow_one, Nat.pow_succ, Nat.mul_div_cancel _ (by decide)]

theorem pof2_eq (hpos : 0 < number) (hlt : number < 2 ^ 31) : pof2 number = 2 ^ number.log2 :=
  pof2_eq_of_lt hpos (hlt.trans (by decide))

/-- A communicator, as the collectives see it. -/
structure CclComm where
  size : Nat
  size_pos : 0 < size
  size_lt : size < 2 ^ 31

namespace CclComm

def solo : CclComm := ⟨1, by decide, by decide⟩

@[simp] theorem solo_size : solo.size = 1 := rfl

def pair : CclComm := ⟨2, by decide, by decide⟩

@[simp] theorem pair_size : pair.size = 2 := rfl

variable (comm : CclComm)

/-- `ccl_comm::pof2`. -/
def pof2 : Nat := OneCcl.pof2 comm.size

/-- How many times the communicator can be halved. -/
def log : Nat := comm.size.log2

theorem pof2_eq : comm.pof2 = 2 ^ comm.log := OneCcl.pof2_eq comm.size_pos comm.size_lt

theorem two_pow_log_le : 2 ^ comm.log ≤ comm.size := Nat.log2_self_le comm.size_pos.ne'

theorem size_lt_two_pow : comm.size < 2 * 2 ^ comm.log := by
  have h := Nat.lt_log2_self (n := comm.size)
  rwa [Nat.pow_succ, Nat.mul_comm] at h

def rem : Nat := comm.size - comm.pof2

theorem rem_lt : comm.rem < 2 ^ comm.log := by
  have := comm.size_lt_two_pow
  have := comm.two_pow_log_le
  rw [rem, pof2_eq]
  omega

theorem size_eq : comm.size = 2 ^ comm.log + comm.rem := by
  have := comm.two_pow_log_le
  rw [rem, pof2_eq]
  omega

theorem log_of_one {comm : CclComm} (h : comm.size = 1) : comm.log = 0 := by
  rw [log, h]
  decide

theorem rem_of_one {comm : CclComm} (h : comm.size = 1) : comm.rem = 0 := by
  have := comm.size_eq
  rw [log_of_one h] at this
  omega

end CclComm

end OneCcl
