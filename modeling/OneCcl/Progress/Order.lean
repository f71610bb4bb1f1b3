import OneCcl.Progress.Sched

/-!
# The order in which the entries of a schedule start

The invariant of a schedule that makes progress. The entries that have not started stand behind those that have, apart from
entries that are run only once and were complete before the run. So when an entry finds no credit, no later entry of the
same call holds one that it could give back, and no later entry starts before it.
-/

namespace OneCcl

open List

variable {ω : Type}

/-! ### What the list of entries shows -/

def statusAt (l : List (OpEntry ω)) (i : Nat) : EntryStatus := (l[i]?).elim .notStarted CclEntry.status

def barrierAt (l : List (OpEntry ω)) (i : Nat) : Bool := l[i]?.any CclEntry.barrier

/-- The credits that the entries hold while no call is in one of them. -/
def creditSum (l : List (OpEntry ω)) : Nat := (l.map CclEntry.credit).sum

section Lists

variable {l : List (OpEntry ω)} {k : Nat} {e e' : OpEntry ω}

theorem statusAt_of_get (he : l[k]? = some e) : statusAt l k = e.status := by
  rw [statusAt, he]
  rfl

theorem barrierAt_of_get (he : l[k]? = some e) : barrierAt l k = e.barrier := by
  rw [barrierAt, he]
  rfl

theorem statusAt_of_le (hk : l.length ≤ k) : statusAt l k = .notStarted := by
  rw [statusAt, getElem?_eq_none hk]
  rfl

theorem lt_of_completed (h : (statusAt l k).isCompleted) : k < l.length := by
  by_contra hk
  rw [statusAt_of_le (le_of_not_gt hk)] at h
  cases h

theorem getElem?_set_of_get (he : l[k]? = some e) (i : Nat) : (l.set k e')[i]? = if i = k then some e' else l[i]? := by
  have hk : k < l.length := (List.getElem?_eq_some_iff.mp he).1
  rw [getElem?_set]
  by_cases hik : i = k
  · rw [if_pos hik.symm, if_pos hik, if_pos (hik ▸ hk)]
  · rw [if_neg (Ne.symm hik), if_neg hik]

theorem statusAt_set (he : l[k]? = some e) (i : Nat) :
    statusAt (l.set k e') i = if i = k then e'.status else statusAt l i := by
  rw [statusAt, getElem?_set_of_get he]
  split <;> rfl

theorem barrierAt_set (he : l[k]? = some e) (hb : e'.barrier = e.barrier) (i : Nat) :
    barrierAt (l.set k e') i = barrierAt l i := by
  rw [barrierAt, getElem?_set_of_get he]
  split
  next hik => rw [hik, barrierAt_of_get he, ← hb]; rfl
  next => rfl

/-- What one entry gives back or takes. -/
theorem creditSum_set (he : l[k]? = some e) : creditSum (l.set k e') + e.credit = creditSum l + e'.credit := by
  induction l generalizing k with
  | nil => simp at he
  | cons x xs ih =>
    cases k with
    | zero =>
      have hx : x = e := by simpa using he
      simp only [creditSum, set_cons_zero, map_cons, sum_cons, hx]
      omega
    | succ k =>
      have hrest := ih (by simpa using he)
      simp only [creditSum, set_cons_succ, map_cons, sum_cons] at hrest ⊢
      omega

theorem creditSum_eq_zero (h : ∀ x ∈ l, x.credit = 0) : creditSum l = 0 := by
  refine sum_eq_zero fun c hc => ?_
  obtain ⟨x, hx, rfl⟩ := mem_map.mp hc
  exact h x hx

end Lists

/-! ### What a schedule looks like at any moment of a run -/

namespace CclSched

def Attempts (s : OpSched ω) (j : Nat) : Prop := s.pc = .scan j ∨ s.pc = .inside j

/-- An entry in its `start()` has taken its credit already. -/
def insideCredit (s : OpSched ω) : Nat :=
  match s.pc with
  | .inside k => if statusAt s.entries k = .notStarted then 1 else 0
  | _ => 0

/-- How many entries took a credit and are not complete. -/
def held (s : OpSched ω) : Nat := creditSum s.entries + s.insideCredit

/-- The entries reach the started state in the order of their indices, and each at most once in a run; the loop gets past a
barrier only when everything up to the barrier is complete; after a call `start_idx` counts the complete entries at the
head; and the credits that are out are held by entries that are not complete. -/
structure InOrder (s : OpSched ω) : Prop where
  sorted : s.reached.Pairwise (· < ·)
  reached : ∀ i, statusAt s.entries i = .started ∨ statusAt s.entries i = .complete → i ∈ s.reached
  barrier : ∀ j, s.Attempts j → ∀ b < j, barrierAt s.entries b → ∀ i ≤ b, (statusAt s.entries i).isCompleted
  startIdx : s.pc = .left → s.startIdx = (s.entries.takeWhile fun e => e.status.isCompleted).length
  credits_le : s.flowControl.credits ≤ s.flowControl.maxCredits
  taken : s.flowControl.maxCredits - s.flowControl.credits = s.held

/-! ### The invariant -/

/-- What holds at every point of a run. `extra` is the credit of an entry in its `start()`. -/
structure Core (s : OpSched ω) (extra : Nat) : Prop where
  startIdx_le : s.startIdx ≤ s.entries.length
  leading : ∀ i < s.startIdx, (statusAt s.entries i).isCompleted
  order : ∀ i j, i < j → (statusAt s.entries i).isLate →
    statusAt s.entries j = .notStarted ∨ statusAt s.entries j = .completeOnce
  sorted : s.reached.Pairwise (· < ·)
  reached_lt : ∀ r ∈ s.reached, ∀ i, (statusAt s.entries i).isLate → r < i
  reached : ∀ i, statusAt s.entries i = .started ∨ statusAt s.entries i = .complete → i ∈ s.reached
  credits : s.flowControl.credits + creditSum s.entries + extra = s.flowControl.maxCredits
  minCredits_le : s.flowControl.minCredits ≤ s.flowControl.credits
  copies : ∀ e ∈ s.entries, ¬ e.status.isLate → e.body.copyCredit = 0

/-- The loop is at entry `k`. -/
structure At (s : OpSched ω) (k : Nat) : Prop where
  startIdx_le : s.startIdx ≤ k
  stuck : s.startIdx < k → ¬ (statusAt s.entries s.startIdx).isCompleted
  barriers : ∀ b < k, barrierAt s.entries b → ∀ i ≤ b, (statusAt s.entries i).isCompleted

/-- What holds at each point of the loop. An entry that found no credit leaves none for those behind it. -/
def PcInv (s : OpSched ω) : Prop :=
  match s.pc with
  | .ready => creditSum s.entries = 0
  | .scan k => k ≤ s.entries.length ∧ s.At k ∧ ∀ i < k, (statusAt s.entries i).isLate → s.flowControl.credits = 0
  | .inside k =>
    s.At k ∧ (∀ i < k, ¬ (statusAt s.entries i).isLate) ∧ ¬ (statusAt s.entries k).isCompleted
  | .left => ¬ (statusAt s.entries s.startIdx).isCompleted

/-- The invariant of a schedule. -/
structure Inv (s : OpSched ω) : Prop where
  core : s.Core s.insideCredit
  at_pc : s.PcInv

variable {s : OpSched ω} {k x : Nat} {e : OpEntry ω}

theorem Core.at_pc_eq (h : s.Core x) (pc : LoopPc) : Core { s with pc := pc } x :=
  ⟨h.startIdx_le, h.leading, h.order, h.sorted, h.reached_lt, h.reached, h.credits, h.minCredits_le, h.copies⟩

theorem takeWhile_length {l : List (OpEntry ω)} {n : Nat} (hlead : ∀ i < n, (statusAt l i).isCompleted)
    (hend : ¬ (statusAt l n).isCompleted) : n = (l.takeWhile fun e => e.status.isCompleted).length := by
  induction l generalizing n with
  | nil =>
    cases n with
    | zero => rfl
    | succ n => exact absurd (lt_of_completed (hlead 0 n.succ_pos)) (Nat.not_lt_zero _)
  | cons e l ih =>
    have hhead : statusAt (e :: l) 0 = e.status := rfl
    cases n with
    | zero => rw [takeWhile_cons_of_neg (hhead ▸ hend), length_nil]
    | succ n =>
      rw [takeWhile_cons_of_pos (hhead ▸ hlead 0 n.succ_pos), length_cons]
      exact congrArg (· + 1) (ih (fun i hi => hlead (i + 1) (Nat.succ_lt_succ hi)) hend)

/-- What the invariant says to the outside. -/
theorem Inv.inOrder (h : s.Inv) : s.InOrder := by
  have hcredits := h.core.credits
  refine ⟨h.core.sorted, h.core.reached, ?_, ?_, by omega, ?_⟩
  · intro j hj
    have hpc := h.at_pc
    rcases hj with hj | hj
    · simp only [PcInv, hj] at hpc
      exact hpc.2.1.barriers
    · simp only [PcInv, hj] at hpc
      exact hpc.1.barriers
  · intro hleft
    have hpc := h.at_pc
    simp only [PcInv, hleft] at hpc
    exact takeWhile_length h.core.leading hpc
  · rw [held]
    omega

/-! ### The loop's decision -/

/-- When the loop goes on to the next entry or leaves, the invariant holds again. -/
theorem Core.advance (hcore : s.Core 0) (hat : s.At k) (he : s.entries[k]? = some e)
    (hlate : ∀ i ≤ k, (statusAt s.entries i).isLate → (i = k ∧ e.status = .again) ∨ s.flowControl.credits = 0) :
    (s.advance k e).Inv := by
  have hst := statusAt_of_get he
  have hk : k < s.entries.length := (List.getElem?_eq_some_iff.mp he).1
  have hnone : e.status ≠ .again → ∀ i < k + 1, (statusAt s.entries i).isLate → s.flowControl.credits = 0 := by
    intro hne i hi hl
    rcases hlate i (Nat.le_of_lt_succ hi) hl with ⟨-, hag⟩ | h0
    · exact absurd hag hne
    · exact h0
  unfold CclSched.advance
  split
  next hag =>
    refine ⟨hcore.at_pc_eq .left, ?_⟩
    show ¬ (statusAt s.entries s.startIdx).isCompleted
    rcases Nat.eq_or_lt_of_le hat.startIdx_le with heq | hlt
    · rw [heq, hst, hag]
      exact Bool.false_ne_true
    · exact hat.stuck hlt
  next hag =>
    split
    next hdone =>
      obtain ⟨hidx, hcomp⟩ := hdone
      have hlead : ∀ i < s.startIdx + 1, (statusAt s.entries i).isCompleted := by
        intro i hi
        rcases Nat.lt_succ_iff_lt_or_eq.mp hi with hi | rfl
        · exact hcore.leading i hi
        · rw [← hidx, hst]
          exact hcomp
      refine ⟨⟨by simp only; omega, hlead, hcore.order, hcore.sorted, hcore.reached_lt, hcore.reached, hcore.credits,
        hcore.minCredits_le, hcore.copies⟩, hk, ⟨by simp only; omega, fun h => absurd h (by simp only; omega), ?_⟩,
        hnone hag⟩
      intro b hb _ i hi
      exact hlead i (by omega)
    next hdone =>
      have hstuck : ¬ (statusAt s.entries s.startIdx).isCompleted := by
        rcases Nat.eq_or_lt_of_le hat.startIdx_le with heq | hlt
        · intro hcomp
          exact hdone ⟨heq.symm, by rw [heq, hst] at hcomp; exact hcomp⟩
        · exact hat.stuck hlt
      have hle := hat.startIdx_le
      split
      next => exact ⟨hcore.at_pc_eq .left, hstuck⟩
      next hbar =>
        refine ⟨hcore.at_pc_eq (.scan (k + 1)), hk, ⟨Nat.le_succ_of_le hle, fun _ => hstuck, ?_⟩, hnone hag⟩
        intro b hb hbarrier
        rcases Nat.lt_succ_iff_lt_or_eq.mp hb with hb | rfl
        · exact hat.barriers b hb hbarrier
        · -- a barrier that is not the first incomplete entry always ends the call
          rw [barrierAt_of_get he] at hbarrier
          exact absurd ⟨hbarrier, Or.inr (by omega)⟩ hbar

end CclSched

end OneCcl
