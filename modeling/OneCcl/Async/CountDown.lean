import Mathlib.Algebra.Order.Ring.Int
import Mathlib.Data.Finset.Card
import Mathlib.Data.Finset.Range

/-!
# Counting down to a meeting

`n` parties meet by a counter: each counts it down once, when it has done what comes before the meeting, and goes on when
it sees the counter at zero. So nobody goes on before all have done what comes before.
-/

namespace Async

open Finset

/-- A counter that `n` parties count down, each once: who has counted has done what comes before, and what comes after is
done only at zero. -/
structure CountDown (n counter : Nat) (shouldVisit : Nat → Bool) (Before Done : Nat → Prop) : Prop where
  count : counter + ((range n).filter fun c => shouldVisit c = false).card = n
  visited : ∀ c < n, shouldVisit c = false → Before c
  done : ∀ c < n, Done c → counter = 0

namespace CountDown

variable {n counter : Nat} {shouldVisit : Nat → Bool} {Before Done : Nat → Prop}

theorem init (hdone : ∀ c < n, ¬ Done c) (hshould : ∀ c < n, shouldVisit c = true) :
    CountDown n n shouldVisit Before Done := by
  refine ⟨?_, fun c hc hfalse => ?_, fun c hc hd => absurd hd (hdone c hc)⟩
  · rw [filter_eq_empty_iff.mpr fun c hc => ?_]
    · rfl
    · rw [hshould c (mem_range.mp hc)]
      exact Bool.noConfusion
  · rw [hshould c hc] at hfalse
    cases hfalse

theorem visit (h : CountDown n counter shouldVisit Before Done) {c : Nat} (hc : c < n) (hshould : shouldVisit c = true)
    (hbefore : Before c) : CountDown n (counter - 1) (Function.update shouldVisit c false) Before Done := by
  have hnot : c ∉ (range n).filter fun d => shouldVisit d = false := by
    intro hin
    rw [mem_filter, hshould] at hin
    cases hin.2
  have hset : ((range n).filter fun d => Function.update shouldVisit c false d = false) =
      insert c ((range n).filter fun d => shouldVisit d = false) := by
    ext d
    by_cases hdc : d = c
    · simp [hdc, hc]
    · simp [hdc]
  have hpos : 0 < counter := by
    have hlt := card_lt_card (filter_ssubset.mpr
      (show ∃ d ∈ range n, ¬ shouldVisit d = false from
        ⟨c, mem_range.mpr hc, by rw [hshould]; exact Bool.noConfusion⟩))
    rw [card_range] at hlt
    have := h.count
    omega
  refine ⟨?_, ?_, fun d hd hdone => absurd (h.done d hd hdone) hpos.ne'⟩
  · have := h.count
    rw [hset, card_insert_of_notMem hnot]
    omega
  · intro d hd hfalse
    by_cases hdc : d = c
    · exact hdc ▸ hbefore
    · rw [Function.update_of_ne hdc] at hfalse
      exact h.visited d hd hfalse

theorem before (h : CountDown n counter shouldVisit Before Done) {c : Nat} (hc : c < n) (hdone : Done c) {d : Nat}
    (hd : d < n) : Before d := by
  have hall : ((range n).filter fun c => shouldVisit c = false).card = (range n).card := by
    have hcount := h.count
    rw [h.done c hc hdone, Nat.zero_add] at hcount
    rw [hcount, card_range]
  have hmem := filter_card_eq hall d (mem_range.mpr hd)
  exact h.visited d hd hmem

end CountDown

end Async
