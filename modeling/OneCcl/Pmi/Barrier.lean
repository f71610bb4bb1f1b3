import Mathlib.Algebra.Order.Ring.Int
import Mathlib.Logic.Relation
import Mathlib.Logic.Function.Basic

/-!
# The barrier over the key-value store

`pmi_resizable_simple::pmrt_barrier`: a process writes the number of its barrier under its own key and then reads the
numbers of all processes, again and again, until the smallest is its own. The numbers count up to `BARRIER_NUM_MAX` and
begin again at `0`.

As long as no number begins again they only grow, so the smallest one a process has seen is a lower bound of what all
have written, and nobody leaves early (`left_le_entered`). After that a process at `0` is below those that still wait
at `BARRIER_NUM_MAX`: it finds itself to be the smallest at once, and leaves while they have not even left the barrier
before. `pmrt_barrier_safe_iff` has both.
-/

namespace OneCcl

open Function

/-- `BARRIER_NUM_MAX`. -/
def barrierNumMax : Nat := 1024

/-- Where a process is: outside, or in the loop of the barrier with `i` numbers read and the smallest of them. -/
inductive BarrierPc where
  | outside
  | reading (i minBarrierIdx : Nat)
  deriving DecidableEq, Repr

/-- A process, with what it wrote to the store, and how many barriers it has entered and left. -/
structure BarrierProc where
  barrierNum : Nat
  stored : Option Nat
  pc : BarrierPc
  entered : Nat
  left : Nat
  deriving DecidableEq, Repr

def BarrierProc.init : BarrierProc := ⟨0, none, .outside, 0, 0⟩

/-- What process `p` does next, of `n` processes that make `k` barriers each: one write or one read of the store, or what
`pmrt_barrier` does with the smallest number. A process waits for a number that is not there yet. -/
def pmrtBarrier (n k : Nat) (s : Nat → BarrierProc) (p : Nat) : Option BarrierProc :=
  match (s p).pc with
  | .outside =>
    if (s p).entered < k then
      some { s p with stored := some (s p).barrierNum, pc := .reading 0 0, entered := (s p).entered + 1 }
    else none
  | .reading i minBarrierIdx =>
    if i < n then
      match (s i).stored with
      | none => none
      | some barrierIdx =>
        some { s p with pc := .reading (i + 1) (if i = 0 ∨ minBarrierIdx > barrierIdx then barrierIdx else minBarrierIdx) }
    else if minBarrierIdx ≠ (s p).barrierNum then some { s p with pc := .reading 0 0 }
    else
      let barrierNum := (s p).barrierNum + 1
      some { s p with
        barrierNum := if barrierNum > barrierNumMax then 0 else barrierNum, pc := .outside, left := (s p).left + 1 }

def BarrierStep (n k : Nat) (s s' : Nat → BarrierProc) : Prop :=
  ∃ p < n, ∃ me, pmrtBarrier n k s p = some me ∧ s' = update s p me

/-- The states `n` processes can come to. -/
def BarrierReach (n k : Nat) : (Nat → BarrierProc) → Prop :=
  Relation.ReflTransGen (BarrierStep n k) fun _ => .init

/-! ## What a step does -/

section

variable {n k : Nat} {s : Nat → BarrierProc} {p : Nat} {me : BarrierProc}

theorem pmrtBarrier_cases (h : pmrtBarrier n k s p = some me) : ((s p).pc = .outside ∧ (s p).entered < k ∧
      me = { s p with stored := some (s p).barrierNum, pc := .reading 0 0, entered := (s p).entered + 1 }) ∨
    (∃ i m v, (s p).pc = .reading i m ∧ i < n ∧ (s i).stored = some v ∧
      me = { s p with pc := .reading (i + 1) (if i = 0 ∨ m > v then v else m) }) ∨
    (∃ i m, (s p).pc = .reading i m ∧ me = { s p with pc := .reading 0 0 }) ∨
    (∃ i, (s p).pc = .reading i (s p).barrierNum ∧ n ≤ i ∧
      me = { s p with
        barrierNum := if (s p).barrierNum + 1 > barrierNumMax then 0 else (s p).barrierNum + 1
        pc := .outside, left := (s p).left + 1 }) := by
  unfold pmrtBarrier at h
  cases hpc : (s p).pc with
  | outside =>
    rw [hpc] at h
    dsimp only at h
    split at h
    next hlt => exact .inl ⟨rfl, hlt, (Option.some.inj h).symm⟩
    next => cases h
  | reading i m =>
    rw [hpc] at h
    dsimp only at h
    split at h
    next hi =>
      cases hv : (s i).stored with
      | none =>
        rw [hv] at h
        cases h
      | some v =>
        rw [hv] at h
        exact .inr (.inl ⟨i, m, v, rfl, hi, hv, (Option.some.inj h).symm⟩)
    next hi =>
      split at h
      next => exact .inr (.inr (.inl ⟨i, m, rfl, (Option.some.inj h).symm⟩))
      next hm =>
        obtain rfl := not_not.mp hm
        exact .inr (.inr (.inr ⟨i, rfl, le_of_not_gt hi, (Option.some.inj h).symm⟩))

variable {s' : Nat → BarrierProc}

theorem entered_mono (h : pmrtBarrier n k s p = some me) (j : Nat) : (s j).entered ≤ (update s p me j).entered := by
  by_cases hj : j = p
  · subst hj
    rw [update_self]
    rcases pmrtBarrier_cases h with ⟨-, -, rfl⟩ | ⟨i, m, v, -, -, -, rfl⟩ | ⟨i, m, -, rfl⟩ | ⟨i, -, -, rfl⟩
    · exact Nat.le_succ _
    all_goals exact le_rfl
  · exact Nat.le_of_eq (by rw [update_of_ne hj])

def BarrierProc.inside (me : BarrierProc) : Nat :=
  match me.pc with
  | .outside => 0
  | .reading _ _ => 1

theorem BarrierProc.inside_outside (h : me.pc = .outside) : me.inside = 0 := by
  rw [BarrierProc.inside, h]

theorem BarrierProc.inside_reading {i m : Nat} (h : me.pc = .reading i m) : me.inside = 1 := by
  rw [BarrierProc.inside, h]

theorem entered_eq (h : BarrierReach n k s) (p : Nat) : (s p).entered = (s p).left + (s p).inside := by
  induction h with
  | refl => rfl
  | tail _ hstep ih =>
    obtain ⟨q, -, me, hme, rfl⟩ := hstep
    by_cases hp : p = q
    · subst hp
      rw [update_self]
      rcases pmrtBarrier_cases hme with ⟨hpc, -, rfl⟩ | ⟨i, m, v, hpc, -, -, rfl⟩ | ⟨i, m, hpc, rfl⟩ | ⟨i, hpc, -, rfl⟩
      · rw [BarrierProc.inside_outside hpc] at ih
        exact congrArg (· + 1) ih
      all_goals
        rw [BarrierProc.inside_reading hpc] at ih
        exact ih
    · rw [update_of_ne hp]
      exact ih

end

/-! ## Before a number begins again -/

/-- What is known of a process: its number is that of the barriers it has left, it has written the number of the last one
it entered, and whatever it has read is below what is written now. -/
structure BarrierProc.Ok (n : Nat) (s : Nat → BarrierProc) (p : Nat) : Prop where
  num : (s p).left ≤ barrierNumMax → (s p).barrierNum = (s p).left
  stored : (s p).stored = if (s p).entered = 0 then none else some ((s p).entered - 1)
  reading : ∀ i m, (s p).pc = .reading i m → ∀ j < n, j < i → m < (s j).entered
  bound : (s p).entered ≤ barrierNumMax + 1

/-- The invariant of the processes. -/
structure BarrierInv (n : Nat) (s : Nat → BarrierProc) : Prop where
  procs : ∀ p < n, BarrierProc.Ok n s p
  safe : ∀ p < n, ∀ q < n, (s p).left ≤ (s q).entered

section

variable {n k : Nat} {s s' : Nat → BarrierProc}

theorem BarrierInv.init (n : Nat) : BarrierInv n fun _ => .init := by
  refine ⟨fun p _ => ⟨fun _ => rfl, rfl, fun i m h => ?_, Nat.zero_le _⟩, fun _ _ _ _ => Nat.le_refl 0⟩
  cases h

variable {p : Nat}

theorem BarrierProc.Ok.mono (h : BarrierProc.Ok n s p) (hp : s' p = s p)
    (hmono : ∀ j, (s j).entered ≤ (s' j).entered) : BarrierProc.Ok n s' p := by
  refine ⟨?_, ?_, fun i m hpc j hj hji => ?_, ?_⟩ <;> rw [hp] at *
  · exact h.num
  · exact h.stored
  · exact (h.reading i m hpc j hj hji).trans_le (hmono j)
  · exact h.bound

/-- The process that takes a step stays in order. -/
theorem BarrierProc.Ok.step {me : BarrierProc} (hk : k ≤ barrierNumMax + 1)
    (hphase : (s p).entered = (s p).left + (s p).inside) (hp : p < n) (hinv : BarrierInv n s)
    (h : pmrtBarrier n k s p = some me) : BarrierProc.Ok n (update s p me) p := by
  have hok := hinv.procs p hp
  have hmono := entered_mono h
  rcases pmrtBarrier_cases h with ⟨hpc, hlt, rfl⟩ | ⟨i, m, v, hpc, hi, hv, rfl⟩ | ⟨i, m, hpc, rfl⟩ | ⟨i, hpc, hi, rfl⟩ <;>
    refine ⟨?_, ?_, fun i' m' hpc' j hj hji => ?_, ?_⟩ <;> simp only [update_self] at *
  · exact hok.num
  · -- it writes the number of the barrier it enters
    rw [BarrierProc.inside_outside hpc] at hphase
    rw [if_neg (Nat.succ_ne_zero _), hok.num (by omega), hphase]
    rfl
  · obtain ⟨rfl, rfl⟩ := BarrierPc.reading.inj hpc'
    exact absurd hji (Nat.not_lt_zero j)
  · omega
  · exact hok.num
  · exact hok.stored
  · -- a number it reads is below what its owner has entered
    obtain ⟨rfl, rfl⟩ := BarrierPc.reading.inj hpc'
    have hstored := (hinv.procs i hi).stored
    rw [hv] at hstored
    have hread : v < (s i).entered := by
      split at hstored
      · cases hstored
      · have := Option.some.inj hstored
        omega
    refine Nat.lt_of_lt_of_le ?_ (hmono j)
    rcases Nat.lt_succ_iff_lt_or_eq.mp hji with hlt | rfl
    · have hm := hok.reading i m hpc j hj hlt
      split <;> omega
    · split <;> omega
  · exact hok.bound
  · exact hok.num
  · exact hok.stored
  · obtain ⟨rfl, rfl⟩ := BarrierPc.reading.inj hpc'
    exact absurd hji (Nat.not_lt_zero j)
  · exact hok.bound
  · intro hle
    rw [hok.num (by omega), if_neg (by omega)]
  · exact hok.stored
  · cases hpc'
  · exact hok.bound

/-- A step of any process keeps the invariant. -/
theorem BarrierInv.step (hk : k ≤ barrierNumMax + 1) (hphase : ∀ p, (s p).entered = (s p).left + (s p).inside)
    (hinv : BarrierInv n s) (h : BarrierStep n k s s') : BarrierInv n s' := by
  obtain ⟨p, hp, me, hme, rfl⟩ := h
  have hmono := entered_mono hme
  refine ⟨fun q hq => ?_, fun q hq r hr => Nat.le_trans ?_ (hmono r)⟩ <;> by_cases hqp : q = p
  · subst hqp
    exact BarrierProc.Ok.step hk (hphase q) hp hinv hme
  · exact (hinv.procs q hq).mono (update_of_ne hqp ..) hmono
  · subst hqp
    rw [update_self]
    rcases pmrtBarrier_cases hme with ⟨-, -, rfl⟩ | ⟨i, m, v, -, -, -, rfl⟩ | ⟨i, m, -, rfl⟩ | ⟨i, hpc, hi, rfl⟩
    iterate 3 exact hinv.safe q hq r hr
    -- it leaves: all numbers it has read are at least its own
    have hok := hinv.procs q hq
    have hread := hok.reading _ _ hpc r hr (hr.trans_le hi)
    have hin := hphase q
    rw [BarrierProc.inside_reading hpc] at hin
    have hnum := hok.num (by have := hok.bound; omega)
    dsimp only
    omega
  · rw [update_of_ne hqp]
    exact hinv.safe q hq r hr

/-- It holds in every state, as long as the `k` barriers do not use up the numbers. -/
theorem barrierInv_of_reach (hk : k ≤ barrierNumMax + 1) (h : BarrierReach n k s) : BarrierInv n s := by
  induction h with
  | refl => exact .init n
  | tail hreach hstep ih => exact ih.step hk (entered_eq hreach) hstep

end

/-! ## When a number begins again -/

/-- The smallest of the first numbers, as `get_barrier_idx` finds it. -/
def getBarrierIdx (v : Nat → Nat) : Nat → Nat
  | 0 => 0
  | i + 1 => if i = 0 ∨ getBarrierIdx v i > v i then v i else getBarrierIdx v i

theorem getBarrierIdx_const (x i : Nat) : getBarrierIdx (fun _ => x) (i + 1) = x := by
  induction i with
  | zero => rfl
  | succ i ih => rw [getBarrierIdx, ih, ite_self]

theorem getBarrierIdx_zero {v : Nat → Nat} (h : v 0 = 0) (i : Nat) : getBarrierIdx v (i + 1) = 0 := by
  induction i with
  | zero => exact h
  | succ i ih => rw [getBarrierIdx, ih, if_neg (by omega)]

section

variable {n k : Nat} {s : Nat → BarrierProc} {p : Nat} {v : Nat → Nat}

theorem reads_numbers (hp : p < n) (hv : ∀ j < n, (s j).stored = some (v j)) (hpc : (s p).pc = .reading 0 0) {i : Nat}
    (hi : i ≤ n) : Relation.ReflTransGen (BarrierStep n k) s
      (update s p { s p with pc := .reading i (getBarrierIdx v i) }) := by
  induction i with
  | zero =>
    have hself : { s p with pc := .reading 0 (getBarrierIdx v 0) } = s p := by
      rw [getBarrierIdx, ← hpc]
    rw [hself, update_eq_self]
  | succ i ih =>
    refine (ih (Nat.le_of_succ_le hi)).tail ⟨p, hp, { s p with pc := .reading (i + 1) (getBarrierIdx v (i + 1)) }, ?_, ?_⟩
    · have hstored : (update s p { s p with pc := .reading i (getBarrierIdx v i) } i).stored = some (v i) := by
        by_cases hip : i = p
        · subst hip
          rw [update_self]
          exact hv i hi
        · rw [update_of_ne hip]
          exact hv i hi
      rw [pmrtBarrier, update_self]
      dsimp only at hstored ⊢
      rw [if_pos (show i < n from hi), hstored]
      rfl
    · rw [update_idem]

theorem leaves_barrier (hp : p < n) (hv : ∀ j < n, (s j).stored = some (v j)) (hpc : (s p).pc = .reading 0 0)
    (hmin : getBarrierIdx v n = (s p).barrierNum) : Relation.ReflTransGen (BarrierStep n k) s
      (update s p { s p with
        barrierNum := if (s p).barrierNum + 1 > barrierNumMax then 0 else (s p).barrierNum + 1
        pc := .outside, left := (s p).left + 1 }) := by
  refine (reads_numbers hp hv hpc (Nat.le_refl n)).tail ⟨p, hp, _, ?_, (update_idem ..).symm⟩
  rw [pmrtBarrier, update_self]
  dsimp only
  rw [if_neg (Nat.lt_irrefl n), if_neg (not_not_intro hmin)]

theorem enters_barrier (hp : p < n) (hpc : (s p).pc = .outside) (hlt : (s p).entered < k) : BarrierStep n k s
    (update s p { s p with
      stored := some (s p).barrierNum, pc := .reading 0 0, entered := (s p).entered + 1 }) := by
  refine ⟨p, hp, _, ?_, rfl⟩
  rw [pmrtBarrier, hpc]
  exact if_pos hlt

end

/-- The first processes are alike, and so are the others. -/
def lineUp (n i : Nat) (a b : BarrierProc) (p : Nat) : BarrierProc := if p < i then a else if p < n then b else .init

variable {i n : Nat}

theorem lineUp_update (a b : BarrierProc) (hi : i < n) : update (lineUp n i a b) i a = lineUp n (i + 1) a b := by
  funext p
  by_cases hp : p = i
  · subst hp
    rw [update_self, lineUp, if_pos (Nat.lt_succ_self p)]
  · have hlt : p < i ↔ p < i + 1 := by omega
    rw [update_of_ne hp, lineUp, lineUp]
    simp only [hlt]

theorem lineUp_all (n : Nat) (a b c : BarrierProc) : lineUp n n a b = lineUp n 0 c a := by
  funext p
  rw [lineUp, lineUp, if_neg (Nat.not_lt_zero p)]
  split <;> rfl

theorem lineUp_at (a b : BarrierProc) (hi : i < n) : lineUp n i a b i = b := by
  rw [lineUp, if_neg (Nat.lt_irrefl i), if_pos hi]

/-- A process that has left `j` barriers, -/
def idle (j : Nat) : BarrierProc := ⟨j, if j = 0 then none else some (j - 1), .outside, j, j⟩

/-- and one that has entered the next. -/
def waiting (j : Nat) : BarrierProc := ⟨j, some j, .reading 0 0, j + 1, j⟩

section

variable {n k : Nat}

variable {j q x : Nat} {a : BarrierProc}

theorem all_enter (hj : j < k) (hi : i ≤ n) : Relation.ReflTransGen (BarrierStep n k)
    (lineUp n 0 .init (idle j)) (lineUp n i (waiting j) (idle j)) := by
  induction i with
  | zero =>
    have h : lineUp n 0 .init (idle j) = lineUp n 0 (waiting j) (idle j) := rfl
    rw [h]
  | succ i ih =>
    refine (ih (Nat.le_of_succ_le hi)).tail ?_
    have hstep := enters_barrier (k := k) (s := lineUp n i (waiting j) (idle j)) hi (by rw [lineUp_at _ _ hi]; rfl)
      (by rw [lineUp_at _ _ hi]; exact hj)
    rw [lineUp_at _ _ hi] at hstep
    rwa [← lineUp_update _ _ hi]

theorem lineUp_stored (hq : q < n) : (lineUp n i (idle (j + 1)) (waiting j) q).stored = some j := by
  rw [lineUp, if_pos hq]
  split <;> rfl

theorem all_leave (hj : j < barrierNumMax) (hi : i ≤ n) : Relation.ReflTransGen (BarrierStep n k)
    (lineUp n 0 .init (waiting j)) (lineUp n i (idle (j + 1)) (waiting j)) := by
  induction i with
  | zero =>
    have h : lineUp n 0 .init (waiting j) = lineUp n 0 (idle (j + 1)) (waiting j) := rfl
    rw [h]
  | succ i ih =>
    refine (ih (Nat.le_of_succ_le hi)).trans ?_
    have hat : lineUp n i (idle (j + 1)) (waiting j) i = waiting j := lineUp_at _ _ hi
    have hmin : getBarrierIdx (fun _ => j) n = (lineUp n i (idle (j + 1)) (waiting j) i).barrierNum := by
      obtain ⟨m, rfl⟩ : ∃ m, n = m + 1 := ⟨n - 1, by omega⟩
      rw [hat, getBarrierIdx_const]
      rfl
    have hleave := leaves_barrier (k := k) hi (fun q hq => lineUp_stored hq) (by rw [hat]; rfl) hmin
    rw [hat] at hleave
    have hnum : (if (waiting j).barrierNum + 1 > barrierNumMax then 0 else (waiting j).barrierNum + 1) = j + 1 :=
      if_neg (Nat.not_lt.mpr hj)
    rw [hnum] at hleave
    rwa [← lineUp_update _ _ hi]

theorem reach_idle (hj : j ≤ barrierNumMax) (hk : j ≤ k) : BarrierReach n k (lineUp n 0 .init (idle j)) := by
  induction j with
  | zero =>
    have h : lineUp n 0 .init (idle 0) = fun _ => .init := by
      funext p
      rw [lineUp, if_neg (Nat.not_lt_zero p)]
      exact ite_self _
    rw [h]
    exact .refl
  | succ j ih =>
    have henter := all_enter (n := n) hk (Nat.le_refl n)
    rw [lineUp_all n _ _ .init] at henter
    have hleave := all_leave (n := n) (k := k) (Nat.lt_of_succ_le hj) (Nat.le_refl n)
    rw [lineUp_all n _ _ .init] at hleave
    exact ((ih (Nat.le_of_succ_le hj) (Nat.le_of_succ_le hk)).trans henter).trans hleave

theorem lineUp_head (n : Nat) (a b c : BarrierProc) : update (lineUp n 1 a b) 0 c = lineUp n 1 c b := by
  funext p
  by_cases hp : p = 0
  · subst hp
    rfl
  · have hlt : ¬ p < 1 := by omega
    rw [update_of_ne hp, lineUp, lineUp, if_neg hlt, if_neg hlt]

theorem lineUp_head_stored (ha : a.stored = some x) (hq : q < n) :
    (lineUp n 1 a (waiting j) q).stored = some (if q = 0 then x else j) := by
  by_cases h : q = 0
  · subst h
    exact ha
  · rw [lineUp, if_neg (by omega), if_pos hq, if_neg h]
    rfl

theorem head_leaves (hn : 0 < n) (ha : a.stored = some x) (hpc : a.pc = .reading 0 0)
    (hmin : getBarrierIdx (fun q => if q = 0 then x else j) n = a.barrierNum) :
    Relation.ReflTransGen (BarrierStep n k) (lineUp n 1 a (waiting j))
      (lineUp n 1 { a with
        barrierNum := if a.barrierNum + 1 > barrierNumMax then 0 else a.barrierNum + 1
        pc := .outside, left := a.left + 1 } (waiting j)) := by
  have h := leaves_barrier (k := k) (s := lineUp n 1 a (waiting j)) hn (fun q hq => lineUp_head_stored ha hq) hpc hmin
  rwa [lineUp_head] at h

/-- Process `0` leaves the barrier with the largest number, enters the next one and leaves it, while the others are still
in the first. -/
theorem reach_ahead (hn : 0 < n) (hk : barrierNumMax + 2 ≤ k) :
    BarrierReach n k (lineUp n 1 ⟨1, some 0, .outside, barrierNumMax + 2, barrierNumMax + 2⟩ (waiting barrierNumMax)) := by
  obtain ⟨m, rfl⟩ : ∃ m, n = m + 1 := ⟨n - 1, by omega⟩
  have hidle : BarrierReach (m + 1) k (lineUp (m + 1) 0 .init (idle barrierNumMax)) := reach_idle (le_rfl) (by omega)
  have henter := all_enter (n := m + 1) (show barrierNumMax < k by omega) (Nat.le_refl (m + 1))
  have hhead : lineUp (m + 1) (m + 1) (waiting barrierNumMax) (idle barrierNumMax) =
      lineUp (m + 1) 1 (waiting barrierNumMax) (waiting barrierNumMax) := by
    rw [lineUp_all _ _ _ (waiting barrierNumMax), ← lineUp_update _ _ hn, update_eq_self_iff.mpr]
    exact (lineUp_at _ _ hn).symm
  rw [hhead] at henter
  have hleave := head_leaves (k := k) (a := waiting barrierNumMax) (j := barrierNumMax) hn rfl rfl
    (by simp only [ite_self]; exact getBarrierIdx_const ..)
  -- its number is 0 now
  have hagain := enters_barrier (n := m + 1) (k := k) (p := 0) (s := lineUp (m + 1) 1
    ⟨0, some barrierNumMax, .outside, barrierNumMax + 1, barrierNumMax + 1⟩ (waiting barrierNumMax)) hn rfl hk
  rw [lineUp_head] at hagain
  have hahead := head_leaves (k := k) (a := ⟨0, some 0, .reading 0 0, barrierNumMax + 2, barrierNumMax + 1⟩)
    (j := barrierNumMax) hn rfl rfl (getBarrierIdx_zero rfl m)
  exact (((hidle.trans henter).trans hleave).tail hagain).trans hahead

end

/-- No process leaves its `j`-th barrier before every process has entered its `j`-th. -/
def BarrierSafe (n k : Nat) : Prop :=
  ∀ s, BarrierReach n k s → ∀ p < n, ∀ q < n, ∀ j, j < (s p).left → j < (s q).entered

theorem not_barrierSafe {k : Nat} (hn : 2 ≤ n) (hk : barrierNumMax + 2 ≤ k) : ¬ BarrierSafe n k := by
  intro hsafe
  have h := hsafe _ (reach_ahead (by omega) hk) 0 (by omega) 1 (by omega) (barrierNumMax + 1) (Nat.lt_succ_self _)
  rw [lineUp, if_neg (by decide), if_pos (by omega)] at h
  exact lt_irrefl _ h

/-- The barrier is safe just for one process, or as long as no number begins again. -/
theorem pmrt_barrier_safe_iff (n k : Nat) : BarrierSafe n k ↔ n ≤ 1 ∨ k ≤ barrierNumMax + 1 := by
  constructor
  · intro hsafe
    by_contra hcon
    exact not_barrierSafe (by omega) (by omega) hsafe
  · rintro (hn | hk) s hreach p hp q hq j hj
    · obtain rfl : p = q := by omega
      have := entered_eq hreach p
      omega
    · exact hj.trans_le ((barrierInv_of_reach hk hreach).safe p hp q hq)

/-- Two processes and 1026 barriers. -/
theorem pmrt_barrier_wraps_unsafe : ∃ s, BarrierReach 2 1026 s ∧ (s 0).left = 1026 ∧ (s 1).entered = 1025 :=
  ⟨_, reach_ahead (by decide) (by decide), rfl, rfl⟩

end OneCcl
