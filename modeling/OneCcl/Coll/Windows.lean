import OneCcl.Reduction.Halving
import OneCcl.Reduction.Parts
import OneCcl.Comm.Comm

/-!
# The block table and the index windows

Rabenseifner's algorithms cut the data into `pof2` blocks, all of `count / pof2` elements but the last, which
takes what is left. While they halve the data (reduce-scatter) and double it again (allgather, gather),
three indices into the table follow which blocks a rank keeps: `send_idx`, `recv_idx` and `last_idx`. The
allreduce and the reduce compute them in the same words: here they are once.

The indices are computed from the previous ones. `halving_table` and `doubling_table` say what they are, for any table
of blocks: in step `k` a rank that keeps the segment of its window after the step exchanges the segment its partner keeps.
-/

namespace OneCcl

open Reduction Parts Nat

variable {a b i k v : Nat} {α : Type} {op : α → α → α}

/-! ## Blocks -/

/-- A `size_t` kept in an `int`: its low 32 bits. -/
def toInt (x : Nat) : Nat := x % 2 ^ 32

theorem toInt_of_lt {x : Nat} (h : x < 2 ^ 31) : toInt x = x := mod_eq_of_lt (h.trans (by decide))

/-- The table `cnts`. -/
def blockCnts (count pof2 i : Nat) : Nat :=
  if i < pof2 - 1 then toInt (count / pof2) else toInt (count - count / pof2 * (pof2 - 1))

/-- The table `disps`. -/
def blockDisps (count pof2 : Nat) : Nat → Nat
  | 0 => 0
  | i + 1 => blockDisps count pof2 i + blockCnts count pof2 i

/-- The loop `for (i = a; i < b; i++) cnt += cnts[i]`. -/
def sumCnts (cnts : Nat → Nat) (a b : Nat) : Nat := (List.range' a (b - a)).foldl (fun cnt i => cnt + cnts i) 0

theorem sumCnts_table (cnts : Nat → Nat) (h : a ≤ b) : sumCnts cnts a b = sumTo cnts b - sumTo cnts a := by
  have := sumTo_add_foldl cnts a (b - a)
  rw [Nat.add_sub_cancel' h] at this
  unfold sumCnts
  omega

theorem blockDisps_eq (count pof2 i : Nat) : blockDisps count pof2 i = sumTo (blockCnts count pof2) i := by
  induction i with
  | zero => rfl
  | succ i ih => rw [blockDisps, ih, sumTo]

section

variable {count pof2 : Nat}

theorem blockDisps_of_lt (hcount : count < 2 ^ 31) (h : i < pof2) : blockDisps count pof2 i = i * (count / pof2) := by
  induction i with
  | zero => rw [blockDisps, zero_mul]
  | succ i ih =>
    have hdiv : count / pof2 < 2 ^ 31 := (div_le_self _ _).trans_lt hcount
    rw [blockDisps, ih (by omega), blockCnts, if_pos (by omega), toInt_of_lt hdiv, succ_mul]

theorem blockDisps_top (hcount : count < 2 ^ 31) (hpos : 0 < pof2) : blockDisps count pof2 pof2 = count := by
  obtain ⟨m, rfl⟩ : ∃ m, pof2 = m + 1 := ⟨pof2 - 1, by omega⟩
  have hlast : count - count / (m + 1) * (m + 1 - 1) < 2 ^ 31 := by omega
  have hle : m * (count / (m + 1)) ≤ count :=
    (mul_le_mul_right _ (le_succ m)).trans (mul_div_le count (m + 1))
  rw [blockDisps, blockDisps_of_lt hcount (lt_succ_self m), blockCnts, if_neg (by omega), toInt_of_lt hlast,
    Nat.add_sub_cancel, Nat.mul_comm (count / (m + 1)) m]
  exact Nat.add_sub_cancel' hle

theorem blockCnts_pos (hcount : count < 2 ^ 31) (hpos : 0 < pof2) (hle : pof2 ≤ count) (i : Nat) :
    0 < blockCnts count pof2 i := by
  have hdiv : 0 < count / pof2 := div_pos hle hpos
  unfold blockCnts
  split
  · rw [toInt_of_lt ((div_le_self _ _).trans_lt hcount)]
    exact hdiv
  · obtain ⟨m, rfl⟩ : ∃ m, pof2 = m + 1 := ⟨pof2 - 1, by omega⟩
    have hmul := div_mul_le_self count (m + 1)
    rw [mul_add, mul_one] at hmul
    rw [toInt_of_lt (by omega), Nat.add_sub_cancel]
    omega

theorem blockDisps_lt (hcount : count < 2 ^ 31) (hpos : 0 < pof2) (hle : pof2 ≤ count) (h : a < b) :
    blockDisps count pof2 a < blockDisps count pof2 b := by
  induction b with
  | zero => exact absurd h (not_lt_zero a)
  | succ b ih =>
    have hb := blockCnts_pos hcount hpos hle b
    rw [blockDisps]
    rcases Nat.lt_succ_iff_lt_or_eq.mp h with h | rfl
    · exact (ih h).trans_le (le_add_right _ _)
    · exact Nat.lt_add_of_pos_right hb

end

/-! ## The indices -/

/-- The variables of the loops over the masks. -/
structure Windows where
  mask : Nat
  sendIdx : Nat
  recvIdx : Nat
  lastIdx : Nat
  deriving DecidableEq, Repr

/-- The indices in one iteration of the reduce-scatter, with `send_cnt` and `recv_cnt`. -/
def halving (cnts : Nat → Nat) (pof2 newrank newdst : Nat) (x : Windows) : Windows × Nat × Nat :=
  if newrank < newdst then
    let sendIdx := x.recvIdx + pof2 / (x.mask * 2)
    ({ x with sendIdx }, sumCnts cnts sendIdx x.lastIdx, sumCnts cnts x.recvIdx sendIdx)
  else
    let recvIdx := x.sendIdx + pof2 / (x.mask * 2)
    ({ x with recvIdx }, sumCnts cnts x.sendIdx recvIdx, sumCnts cnts recvIdx x.lastIdx)

/-- The end of an iteration of the reduce-scatter: `last_idx` is not updated after the last one. -/
def halvingNext (pof2 : Nat) (x : Windows) : Windows :=
  let mask := x.mask <<< 1
  ⟨mask, x.recvIdx, x.recvIdx, if mask < pof2 then x.recvIdx + pof2 / mask else x.lastIdx⟩

/-- The indices in one iteration of the allgather, with `send_cnt` and `recv_cnt`. -/
def doubling (cnts : Nat → Nat) (pof2 newrank newdst : Nat) (x : Windows) : Windows × Nat × Nat :=
  if newrank < newdst then
    let lastIdx := if x.mask ≠ pof2 / 2 then x.lastIdx + pof2 / (x.mask * 2) else x.lastIdx
    let recvIdx := x.sendIdx + pof2 / (x.mask * 2)
    ({ x with recvIdx, lastIdx }, sumCnts cnts x.sendIdx recvIdx, sumCnts cnts recvIdx lastIdx)
  else
    let recvIdx := x.sendIdx - pof2 / (x.mask * 2)
    ({ x with recvIdx }, sumCnts cnts x.sendIdx x.lastIdx, sumCnts cnts recvIdx x.sendIdx)

/-- The end of an iteration of the allgather. -/
def doublingNext (newrank newdst : Nat) (x : Windows) : Windows :=
  { x with mask := x.mask >>> 1, sendIdx := if newrank > newdst then x.recvIdx else x.sendIdx }

/-! ## What the indices are -/

section

variable (cnts : Nat → Nat) {K : Nat}

/-- Where the elements start that new rank `v` has after `k` halvings, for any table of blocks. -/
def tableStart (K k v : Nat) : Nat := sumTo cnts (windowStart K k v)

def tableEnd (K k v : Nat) : Nat := sumTo cnts (windowStart K k v + 2 ^ (K - k))

def tableCnt (K k v : Nat) : Nat := tableEnd cnts K k v - tableStart cnts K k v

theorem tableEnd_zero (K v : Nat) : tableEnd cnts K 0 v = sumTo cnts (2 ^ K) := by
  show sumTo cnts (0 + 2 ^ (K - 0)) = _
  rw [Nat.zero_add, Nat.sub_zero]

theorem tableStart_le_tableEnd (K k v : Nat) : tableStart cnts K k v ≤ tableEnd cnts K k v :=
  sumTo_mono cnts (le_add_right _ _)

theorem table_xor (K k v : Nat) : tableStart cnts K k (v ^^^ 2 ^ k) = tableStart cnts K k v ∧
    tableEnd cnts K k (v ^^^ 2 ^ k) = tableEnd cnts K k v := by
  unfold tableStart tableEnd
  rw [windowStart_xor (le_refl k)]
  exact ⟨rfl, rfl⟩

/-- **The two sides of step `k` halve the elements they have.** -/
theorem table_halves (hk : k < K) (v : Nat) : (tableStart cnts K (k + 1) v = tableStart cnts K k v ∧
      tableEnd cnts K (k + 1) v = tableStart cnts K (k + 1) (v ^^^ 2 ^ k) ∧
      tableEnd cnts K (k + 1) (v ^^^ 2 ^ k) = tableEnd cnts K k v) ∨
    (tableStart cnts K (k + 1) (v ^^^ 2 ^ k) = tableStart cnts K k v ∧
      tableEnd cnts K (k + 1) (v ^^^ 2 ^ k) = tableStart cnts K (k + 1) v ∧
      tableEnd cnts K (k + 1) v = tableEnd cnts K k v) := by
  have hpow := two_pow_sub_eq hk
  unfold tableStart tableEnd
  rcases windowStart_halves K k v with ⟨-, h1, h2⟩ | ⟨-, h1, h2⟩
  · refine .inl ⟨by rw [h1], by rw [h1, h2], ?_⟩
    rw [h2, hpow, two_mul, add_assoc]
  · refine .inr ⟨by rw [h2], by rw [h1, h2], ?_⟩
    rw [h1, hpow, two_mul, add_assoc]

theorem two_pow_div_mask (hk : k < K) : 2 ^ K / (2 ^ k * 2) = 2 ^ (K - (k + 1)) := by
  rw [← Nat.pow_succ, Nat.pow_div hk (by decide)]

/-- The variables at the head of step `k` of the reduce-scatter, and behind it at `k = K`. -/
def halvingHead (K v k : Nat) : Windows :=
  ⟨2 ^ k, windowStart K k v, windowStart K k v,
    windowStart K (min k (K - 1)) v + 2 ^ (K - min k (K - 1))⟩

theorem halvingHead_mask_lt {K v k : Nat} (hk : k < K) : (halvingHead K v k).mask < 2 ^ K :=
  Nat.pow_lt_pow_right (by decide) hk

theorem halvingHead_zero (K v : Nat) : halvingHead K v 0 = ⟨1, 0, 0, 2 ^ K⟩ := by
  unfold halvingHead
  rw [Nat.zero_min]
  show Windows.mk _ 0 0 (0 + 2 ^ (K - 0)) = _
  rw [Nat.zero_add, Nat.sub_zero, Nat.pow_zero]

/-- **The indices of the reduce-scatter**: in step `k` a rank receives the segment it keeps and sends the one its
partner keeps. -/
theorem halving_table (hk : k < K) (v : Nat) : ∃ lastIdx, halving cnts (2 ^ K) v (v ^^^ 2 ^ k) (halvingHead K v k) =
      (⟨2 ^ k, windowStart K (k + 1) (v ^^^ 2 ^ k), windowStart K (k + 1) v, lastIdx⟩,
        tableCnt cnts K (k + 1) (v ^^^ 2 ^ k), tableCnt cnts K (k + 1) v) ∧
      halvingNext (2 ^ K) ⟨2 ^ k, windowStart K (k + 1) (v ^^^ 2 ^ k), windowStart K (k + 1) v, lastIdx⟩ =
        halvingHead K v (k + 1) := by
  have hpow := two_pow_sub_eq hk
  have hmin : min k (K - 1) = k := by omega
  refine ⟨windowStart K k v + 2 ^ (K - k), ?_, ?_⟩
  · unfold halving halvingHead tableCnt tableStart tableEnd
    rw [hmin]
    dsimp only
    rw [two_pow_div_mask hk]
    rcases windowStart_halves K k v with ⟨hlt, h1, h2⟩ | ⟨hlt, h1, h2⟩
    · rw [if_pos hlt, sumCnts_table cnts (by omega), sumCnts_table cnts (by omega), h1, h2, hpow, two_mul, add_assoc]
    · rw [if_neg (by omega), sumCnts_table cnts (by omega), sumCnts_table cnts (by omega), h1, h2, hpow, two_mul, add_assoc]
  · unfold halvingNext halvingHead
    dsimp only
    rw [shiftLeft_eq, pow_one, ← pow_succ]
    by_cases hlast : k + 1 < K
    · rw [if_pos (Nat.pow_lt_pow_right (by decide) hlast), show min (k + 1) (K - 1) = k + 1 by omega,
        Nat.pow_div (by omega) (by decide)]
    · have : ¬ 2 ^ (k + 1) < 2 ^ K := (Nat.pow_le_pow_right (by decide) (by omega)).not_gt
      rw [if_neg this, show min (k + 1) (K - 1) = k by omega]

/-- The variables at the head of step `k` of the allgather; `recv_idx` is computed before it is used. -/
def doublingHead (K v k recvIdx : Nat) : Windows :=
  ⟨2 ^ k, windowStart K (k + 1) v, recvIdx,
    if k + 1 = K then windowStart K k v + 2 else windowStart K (k + 1) v + 2 ^ (K - (k + 1))⟩

theorem halvingHead_top (v k : Nat) :
    { halvingHead (k + 1) v (k + 1) with mask := (halvingHead (k + 1) v (k + 1)).mask >>> 1 } =
      doublingHead (k + 1) v k (windowStart (k + 1) (k + 1) v) := by
  unfold halvingHead doublingHead
  rw [Nat.shiftRight_eq_div_pow, Nat.pow_succ, Nat.pow_one, Nat.mul_div_cancel _ (by decide),
    show min (k + 1) (k + 1 - 1) = k by omega, if_pos rfl, show k + 1 - k = 1 by omega, pow_one]

/-- **The indices of the allgather**: in step `k` a rank sends the segment it has and receives the one its partner
has. -/
theorem doubling_table (hk : k < K) (v recvIdx : Nat) :
    ∃ lastIdx, doubling cnts (2 ^ K) v (v ^^^ 2 ^ k) (doublingHead K v k recvIdx) =
      (⟨2 ^ k, windowStart K (k + 1) v, windowStart K (k + 1) (v ^^^ 2 ^ k), lastIdx⟩,
        tableCnt cnts K (k + 1) v, tableCnt cnts K (k + 1) (v ^^^ 2 ^ k)) ∧
      doublingNext v (v ^^^ 2 ^ k) ⟨2 ^ k, windowStart K (k + 1) v, windowStart K (k + 1) (v ^^^ 2 ^ k), lastIdx⟩ =
        ⟨2 ^ k >>> 1, windowStart K k v, windowStart K (k + 1) (v ^^^ 2 ^ k), windowStart K k v + 2 ^ (K - k)⟩ := by
  have hpow := two_pow_sub_eq hk
  have hhalf : 2 ^ K / 2 = 2 ^ (K - 1) := by
    have := two_pow_div_mask (K := K) (k := 0) (by omega)
    rwa [pow_zero, one_mul] at this
  have hmask : 2 ^ k = 2 ^ K / 2 ↔ k + 1 = K := by
    rw [hhalf, Nat.pow_right_inj (by decide)]
    omega
  refine ⟨windowStart K k v + 2 ^ (K - k), ?_, ?_⟩
  · -- `last_idx` is the end of the window in both branches, before the first step and after it
    unfold doubling doublingHead tableCnt tableStart tableEnd
    dsimp only
    rw [two_pow_div_mask hk]
    rcases windowStart_halves K k v with ⟨hlt, h1, h2⟩ | ⟨hlt, h1, h2⟩
    · have hlast : (if 2 ^ k ≠ 2 ^ K / 2 then
          (if k + 1 = K then windowStart K k v + 2 else windowStart K (k + 1) v + 2 ^ (K - (k + 1))) +
            2 ^ (K - (k + 1))
          else if k + 1 = K then windowStart K k v + 2 else windowStart K (k + 1) v + 2 ^ (K - (k + 1))) =
          windowStart K k v + 2 ^ (K - k) := by
        by_cases hK : k + 1 = K
        · rw [if_neg (not_not_intro (hmask.mpr hK)), if_pos hK, ← hK, show k + 1 - k = 1 by omega, pow_one]
        · rw [if_pos (fun hc => hK (hmask.mp hc)), if_neg hK, h1, hpow]
          omega
      rw [if_pos hlt, hlast, sumCnts_table cnts (by omega), sumCnts_table cnts (by omega), h2, h1, hpow, two_mul,
        add_assoc]
    · have hlast : (if k + 1 = K then windowStart K k v + 2 else windowStart K (k + 1) v + 2 ^ (K - (k + 1))) =
          windowStart K k v + 2 ^ (K - k) := by
        split
        next hK => rw [← hK, show k + 1 - k = 1 by omega, pow_one]
        next => rw [h1, hpow]; omega
      rw [if_neg (by omega), hlast, sumCnts_table cnts (by omega), sumCnts_table cnts (by omega), h1, h2, hpow, two_mul,
        Nat.add_sub_cancel, Nat.add_assoc]
  · unfold doublingNext
    rcases windowStart_halves K k v with ⟨hlt, h1, h2⟩ | ⟨hlt, h1, h2⟩
    · rw [if_neg (by omega), h1]
    · rw [if_pos hlt, h2]

theorem doublingHead_eq (hk : k + 1 < K) (v recvIdx : Nat) :
    ⟨2 ^ (k + 1) >>> 1, windowStart K (k + 1) v, recvIdx, windowStart K (k + 1) v + 2 ^ (K - (k + 1))⟩ =
      doublingHead K v k recvIdx := by
  rw [doublingHead, if_neg (by omega), shiftRight_eq_div_pow, pow_succ, pow_one,
    Nat.mul_div_cancel _ (by decide)]

/-! ## What recursive halving computes -/

/-- **A reduce-scatter by recursive halving**: if in step `k` a rank reduces its partner's data into the segment it
keeps, then after `k` steps it has there the reduction over the ranks that agree with it above bit `k`. -/
theorem halving_reduces [Std.Commutative op] [Std.Associative op] (val : Nat → Nat → Nat → α)
    (hstep : ∀ k < K, ∀ v < 2 ^ K, ∀ i, tableStart cnts K (k + 1) v ≤ i → i < tableEnd cnts K (k + 1) v →
      val (k + 1) v i = op (val k v i) (val k (v ^^^ 2 ^ k) i))
    (hk : k ≤ K) (hv : v < 2 ^ K) (hlo : tableStart cnts K k v ≤ i) (hhi : i < tableEnd cnts K k v) :
    Reduces op (fun u => val 0 u i) (block k v) (val k v i) := by
  induction k generalizing v with
  | zero =>
    rw [block_zero]
    exact reduces_singleton _ v
  | succ k ih =>
    have hseg := table_halves cnts hk v
    have hxor := table_xor cnts K k v
    have hlt' := tableStart_le_tableEnd cnts K (k + 1) (v ^^^ 2 ^ k)
    rw [hstep k hk v hv i hlo hhi]
    exact (ih (by omega) hv (by omega) (by omega)).double
      (ih (by omega) (xor_two_pow_lt hv hk) (by omega) (by omega))

end

/-! ## The table of blocks -/

section

variable {count K : Nat}

theorem blockCnts_end (hcount : count < 2 ^ 31) (v : Nat) : tableEnd (blockCnts count (2 ^ K)) K 0 v = count := by
  rw [tableEnd_zero, ← blockDisps_eq, blockDisps_top hcount (Nat.two_pow_pos K)]

theorem blockCnts_start_lt_end (hcount : count < 2 ^ 31) (hle : 2 ^ K ≤ count) (k v : Nat) :
    tableStart (blockCnts count (2 ^ K)) K k v < tableEnd (blockCnts count (2 ^ K)) K k v := by
  unfold tableStart tableEnd
  rw [← blockDisps_eq, ← blockDisps_eq]
  exact blockDisps_lt hcount (Nat.two_pow_pos K) hle (Nat.lt_add_of_pos_right (Nat.two_pow_pos _))

end

end OneCcl
