import Mathlib.Algebra.Order.Ring.Int
import Mathlib.Order.Basic
import Mathlib.Data.Nat.Basic

/-!
# Ordered maps as sorted lists

An ordered map with the operations of a container that hands out iterators: the first entry not below a key
(`lowerBound`), reading, assigning and erasing at a key, and the entry before a key. The lemmas say what the operations do
to a map that is cut at a key into the entries below and the entries above.
-/

namespace SortedMap

open List

variable {κ β : Type} [LinearOrder κ]

/-- The first entry whose key is not below `k`. -/
def lowerBound (m : List (κ × β)) (k : κ) : Option (κ × β) := m.find? fun e => decide (k ≤ e.1)

/-- The entry before the one at `k`. -/
def before (m : List (κ × β)) (k : κ) : Option (κ × β) := (m.filter fun e => decide (e.1 < k)).getLast?

def find (m : List (κ × β)) (k : κ) : Option β := (m.find? fun e => decide (e.1 = k)).map Prod.snd

/-- Assignment at a key, which adds an entry if there is none. -/
def assign : List (κ × β) → κ → β → List (κ × β)
  | [], k, v => [(k, v)]
  | e :: m, k, v => if e.1 < k then e :: assign m k v else if e.1 = k then (k, v) :: m else (k, v) :: e :: m

def erase (m : List (κ × β)) (k : κ) : List (κ × β) := m.filter fun e => decide (e.1 ≠ k)

/-- All keys are below `k`, -/
def Below (m : List (κ × β)) (k : κ) : Prop := ∀ e ∈ m, e.1 < k

/-- all keys are above `k`. -/
def Above (m : List (κ × β)) (k : κ) : Prop := ∀ e ∈ m, k < e.1

variable {m m₁ m₂ : List (κ × β)} {k k' : κ} {v : β} {e : κ × β}

theorem Below.append (h₁ : Below m₁ k) (h₂ : Below m₂ k) : Below (m₁ ++ m₂) k := by
  intro e he
  rcases mem_append.mp he with h | h
  · exact h₁ e h
  · exact h₂ e h

theorem below_singleton (h : e.1 < k) : Below [e] k := by
  intro e' he
  rw [mem_singleton.mp he]
  exact h

theorem Below.mono (h : Below m k) (hk : k ≤ k') : Below m k' := fun e he => lt_of_lt_of_le (h e he) hk

theorem Above.mono (h : Above m k) (hk : k' ≤ k) : Above m k' := fun e he => lt_of_le_of_lt hk (h e he)

theorem above_cons (he : k < e.1) (h : Above m k) : Above (e :: m) k := by
  intro e' hm
  rcases mem_cons.mp hm with rfl | hm
  · exact he
  · exact h e' hm

/-! ## Reading -/

theorem lowerBound_append (h : Below m₁ k) : lowerBound (m₁ ++ m₂) k = lowerBound m₂ k := by
  unfold lowerBound
  rw [find?_append, find?_eq_none.mpr fun e he => by simpa using h e he]
  rfl

theorem lowerBound_cons (h : k ≤ e.1) : lowerBound (e :: m) k = some e := by
  unfold lowerBound
  rw [find?_cons, decide_eq_true h]

theorem find_append (h : Below m₁ k) : find (m₁ ++ m₂) k = find m₂ k := by
  unfold find
  rw [find?_append, find?_eq_none.mpr fun e he => by simpa using ne_of_lt (h e he)]
  rfl

theorem find_append_of_above (h : Above m₂ k) : find (m₁ ++ m₂) k = find m₁ k := by
  have hnone : m₂.find? (fun e => decide (e.1 = k)) = none :=
    find?_eq_none.mpr fun e he => by simpa using ne_of_gt (h e he)
  unfold find
  rw [find?_append, hnone, Option.or_none]

theorem find_of_above (h : Above m k) : find m k = none := by
  rw [← nil_append m, find_append_of_above h]
  rfl

theorem find_cons_self : find ((k, v) :: m) k = some v := by
  unfold find
  rw [find?_cons, decide_eq_true rfl]
  rfl

theorem find_cons_of_ne (h : e.1 ≠ k) : find (e :: m) k = find m k := by
  unfold find
  rw [find?_cons, decide_eq_false h]

theorem before_append (h : Below m₁ k) (he : e.1 < k) (h₂ : ∀ e ∈ m₂, k ≤ e.1) : before (m₁ ++ e :: m₂) k = some e := by
  unfold before
  have hfilter : (m₁ ++ e :: m₂).filter (fun e => decide (e.1 < k)) = m₁ ++ [e] := by
    rw [filter_append, filter_eq_self.mpr fun e he => decide_eq_true (h e he),
      filter_cons_of_pos (by simpa using he), filter_eq_nil_iff.mpr fun e he => by simpa using h₂ e he]
  rw [hfilter, getLast?_concat]

/-! ## Writing -/

theorem assign_append (h : Below m₁ k) : assign (m₁ ++ m₂) k v = m₁ ++ assign m₂ k v := by
  induction m₁ with
  | nil => rfl
  | cons e m₁ ih =>
    rw [cons_append, assign, if_pos (h e mem_cons_self), ih fun e he => h e (mem_cons_of_mem _ he)]
    rfl

theorem assign_of_above (h : Above m k) : assign m k v = (k, v) :: m := by
  cases m with
  | nil => rfl
  | cons e m =>
    have he := h e mem_cons_self
    rw [assign, if_neg (lt_asymm he), if_neg (ne_of_gt he)]

theorem assign_cons_self (v' : β) : assign ((k, v') :: m) k v = (k, v) :: m := by
  rw [assign, if_neg (lt_irrefl k), if_pos rfl]

theorem erase_append (h : Below m₁ k) (h₂ : Above m₂ k) : erase (m₁ ++ (k, v) :: m₂) k = m₁ ++ m₂ := by
  unfold erase
  rw [filter_append, filter_eq_self.mpr fun e he => by simpa using ne_of_lt (h e he),
    filter_cons_of_neg (by simp), filter_eq_self.mpr fun e he => by simpa using ne_of_gt (h₂ e he)]

end SortedMap
