import Mathlib.Algebra.Order.Ring.Int
import Mathlib.Data.Finset.Fold
import Mathlib.Data.Finset.Union
import Mathlib.Data.Finset.Range

/-!
# Reducing a family without a unit

An associative and commutative operation reduces any nonempty finite family to one value, whatever
the order and the grouping; it need not have a unit. `Reduces op f S x` says that `x` is the reduction of
the values `f i`, `i ∈ S`. Partial results over disjoint sets combine (`Reduces.union`), and the
reduction over a whole range is the left fold one writes down (`reduces_range`).
-/

namespace Reduction

open Finset

variable {α ι : Type} (op : α → α → α) [Std.Commutative op] [Std.Associative op]
variable {f : ι → α} {S T : Finset ι} {x y : α} {n : Nat} {κ : Type}

/-- The reduction of a family over a finite set, nothing for the empty set. -/
def reduceOver (f : ι → α) (S : Finset ι) : Option α :=
  S.fold (Option.merge op) none fun i => some (f i)

/-- `x` is the reduction of the family over the set. -/
def Reduces (f : ι → α) (S : Finset ι) (x : α) : Prop := reduceOver op f S = some x

variable {op}

theorem Reduces.unique (hx : Reduces op f S x) (hy : Reduces op f S y) : x = y :=
  Option.some.inj (Eq.trans (Eq.symm hx) hy)

theorem reduces_singleton (f : ι → α) (i : ι) : Reduces op f {i} (f i) := by
  show fold _ _ _ _ = _
  rw [fold_singleton]
  rfl

theorem reduceOver_union [DecidableEq ι] (f : ι → α) (h : Disjoint S T) :
    reduceOver op f (S ∪ T) = Option.merge op (reduceOver op f S) (reduceOver op f T) := by
  have hfold : (S.disjUnion T h).fold (Option.merge op) (Option.merge op none none) (fun i => some (f i)) =
      Option.merge op (reduceOver op f S) (reduceOver op f T) := fold_disjUnion h
  rw [disjUnion_eq_union] at hfold
  exact hfold

/-- **Partial results over disjoint sets combine.** -/
theorem Reduces.union [DecidableEq ι] (hx : Reduces op f S x) (hy : Reduces op f T y) (h : Disjoint S T) :
    Reduces op f (S ∪ T) (op x y) := by
  show reduceOver op f (S ∪ T) = _
  rw [reduceOver_union f h, hx, hy]
  rfl

theorem Reduces.congr {g : ι → α} (hx : Reduces op f S x) (h : ∀ i ∈ S, f i = g i) : Reduces op g S x := by
  refine Eq.trans (Eq.symm ?_) hx
  exact fold_congr fun i hi => congrArg some (h i hi)

omit [Std.Commutative op] [Std.Associative op] in
variable (op) in
/-- The values of `0, 1, …, n - 1` reduced from left to right. -/
def reduceRange (n : Nat) (f : Nat → α) : α := (List.range (n - 1)).foldl (fun x i => op x (f (i + 1))) (f 0)

theorem reduces_range (f : Nat → α) (hn : 0 < n) : Reduces op f (range n) (reduceRange op n f) := by
  obtain ⟨n, rfl⟩ : ∃ m, n = m + 1 := ⟨n - 1, by omega⟩
  rw [reduceRange, Nat.add_sub_cancel]
  clear hn
  induction n with
  | zero => exact reduces_singleton f 0
  | succ n ih =>
    rw [range_add_one, List.range_succ, List.foldl_append]
    have h := ih.union (reduces_singleton f (n + 1)) (by simp)
    rwa [union_comm] at h

/-- **Whatever reduces the whole range is its left fold.** -/
theorem Reduces.eq_reduceRange {f : Nat → α} (hn : 0 < n) (hx : Reduces op f (range n) x) :
    x = reduceRange op n f := hx.unique (reduces_range f hn)

theorem reduceRange_congr {f g : Nat → α} (hn : 0 < n) (h : ∀ i < n, f i = g i) : reduceRange op n f = reduceRange op n g :=
  ((reduces_range f hn).congr fun i hi => h i (mem_range.mp hi)).eq_reduceRange hn

/-- **A reduction of reductions**: groups that do not overlap, each reduced, then their results. -/
theorem Reduces.biUnion [DecidableEq ι] [DecidableEq κ] {g : κ → α} {grp : κ → Finset ι} {S : Finset κ}
    (hx : Reduces op g S x) (hgrp : ∀ v ∈ S, Reduces op f (grp v) (g v))
    (hdisj : ∀ v ∈ S, ∀ w ∈ S, v ≠ w → Disjoint (grp v) (grp w)) : Reduces op f (S.biUnion grp) x := by
  refine Eq.trans ?_ hx
  clear hx
  induction S using Finset.induction_on with
  | empty => rfl
  | insert v S hv ih =>
    have hd : Disjoint (grp v) (S.biUnion grp) := by
      refine (disjoint_biUnion_right ..).mpr fun w hw => ?_
      exact hdisj v (mem_insert_self ..) w (mem_insert_of_mem hw) fun h => hv (h ▸ hw)
    rw [biUnion_insert, reduceOver_union f hd, hgrp v (mem_insert_self ..),
      ih (fun w hw => hgrp w (mem_insert_of_mem hw)) fun w hw u hu =>
        hdisj w (mem_insert_of_mem hw) u (mem_insert_of_mem hu)]
    show _ = fold _ _ _ _
    rw [fold_insert hv]
    rfl

theorem Reduces.image [DecidableEq ι] {S : Finset κ} {g : κ → ι} (hx : Reduces op (fun k => f (g k)) S x)
    (hg : Set.InjOn g S) : Reduces op f (S.image g) x := by
  refine Eq.trans ?_ hx
  exact fold_image fun a ha b hb h => hg ha hb h

end Reduction
