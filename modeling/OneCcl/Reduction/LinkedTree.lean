import Mathlib.Algebra.Order.Ring.Int
import Mathlib.Data.List.Nodup
import Mathlib.Data.Tree.Basic

/-!
# Trees given by their links

A binary tree over ranks is known to each of them by its own links: its parent and its two children. `Linked C par t`
says that the links `C` are those of the tree `t`, whose root has the parent `par`; what is proved by recursion on the
tree then holds of what every rank does by its links.

`span s n t b` is a search tree: the numbers `x` strictly between `b` and `b + 2 ^ t`, as `x - s`, with the middle one
on top, and those out of the range `0 < x - s < n` left out.
-/

namespace Trees

open List

variable {α β : Type*}

/-- The labels of a tree, from left to right. -/
def labels : BinaryTree α → List α
  | .nil => []
  | .node v l r => labels l ++ v :: labels r

def root? : BinaryTree α → Option α
  | .nil => none
  | .node v _ _ => some v

/-- What a node knows of the tree. -/
structure Links (α : Type*) where
  parent : Option α
  left : Option α
  right : Option α
  deriving DecidableEq, Repr

def Links.map (f : α → β) (x : Links α) : Links β := ⟨x.parent.map f, x.left.map f, x.right.map f⟩

/-- The links are those of the tree, the root of which has the given parent. -/
def Linked (C : α → Links α) : Option α → BinaryTree α → Prop
  | _, .nil => True
  | par, .node v l r => C v = ⟨par, root? l, root? r⟩ ∧ Linked C (some v) l ∧ Linked C (some v) r

variable {v c : α} {l r t : BinaryTree α} {C : α → Links α} {par : Option α}

theorem mem_labels_node {w : α} : w ∈ labels (.node v l r) ↔ w = v ∨ w ∈ labels l ∨ w ∈ labels r := by
  simp only [labels, mem_append, mem_cons]
  exact or_left_comm

theorem mem_self : v ∈ labels (.node v l r) := mem_labels_node.mpr (.inl rfl)

theorem mem_left (h : c ∈ labels l) : c ∈ labels (.node v l r) := mem_labels_node.mpr (.inr (.inl h))

theorem mem_right (h : c ∈ labels r) : c ∈ labels (.node v l r) := mem_labels_node.mpr (.inr (.inr h))

@[simp] theorem root?_node (v : α) (l r : BinaryTree α) : root? (.node v l r) = some v := rfl

theorem root?_map (f : α → β) (t : BinaryTree α) : root? (t.map f) = (root? t).map f := by
  cases t <;> rfl

theorem labels_map (f : α → β) (t : BinaryTree α) : labels (t.map f) = (labels t).map f := by
  induction t with
  | nil => rfl
  | node v l r hl hr => rw [BinaryTree.map, labels, labels, hl, hr, map_append, map_cons]

theorem mem_labels_root (h : root? t = some c) : c ∈ labels t := by
  cases t with
  | nil => cases h
  | node v l r => exact mem_labels_node.mpr (.inl (Option.some.inj h).symm)

theorem root?_ne (h : c ∉ labels t) : root? t ≠ some c := fun hc => h (mem_labels_root hc)

theorem nodup_labels_node : (labels (.node v l r)).Nodup ↔
    (labels l).Nodup ∧ (labels r).Nodup ∧ v ∉ labels l ∧ v ∉ labels r ∧ ∀ w ∈ labels l, w ∉ labels r := by
  rw [labels, nodup_append, nodup_cons]
  constructor
  · rintro ⟨hl, ⟨hv, hr⟩, hne⟩
    exact ⟨hl, hr, fun h => hne v h v mem_cons_self rfl, hv,
      fun w hw hw' => hne w hw w (mem_cons_of_mem _ hw') rfl⟩
  · rintro ⟨hl, hr, hvl, hvr, hdisj⟩
    refine ⟨hl, ⟨hvr, hr⟩, fun w hw w' hw' => ?_⟩
    rcases mem_cons.mp hw' with rfl | hw'
    · exact fun h => hvl (h ▸ hw)
    · exact fun h => hdisj w hw (h ▸ hw')

theorem Linked.parent_root (h : Linked C par t) (hc : root? t = some c) : (C c).parent = par := by
  cases t with
  | nil => cases hc
  | node v l r =>
    cases hc
    rw [h.1]

/-- A node other than the root is a child of its parent. -/
theorem Linked.exists_parent (h : Linked C par t) (hc : c ∈ labels t) (hne : root? t ≠ some c) :
    ∃ v ∈ labels t, (C c).parent = some v ∧ ((C v).left = some c ∨ (C v).right = some c) := by
  induction t generalizing par with
  | nil => cases hc
  | node v l r hl hr =>
    obtain ⟨hv, hleft, hright⟩ := h
    rcases mem_labels_node.mp hc with rfl | hmem | hmem
    · exact absurd rfl hne
    · by_cases htop : root? l = some c
      · exact ⟨v, mem_self, hleft.parent_root htop, .inl (by rw [hv, htop])⟩
      · obtain ⟨w, hw, hpar, hchild⟩ := hl hleft hmem htop
        exact ⟨w, mem_left hw, hpar, hchild⟩
    · by_cases htop : root? r = some c
      · exact ⟨v, mem_self, hright.parent_root htop, .inr (by rw [hv, htop])⟩
      · obtain ⟨w, hw, hpar, hchild⟩ := hr hright hmem htop
        exact ⟨w, mem_right hw, hpar, hchild⟩

def Links.neighbours (x : Links α) : List α := x.parent.toList ++ (x.left.toList ++ x.right.toList)

/-- Parent and children are different nodes. -/
theorem Linked.nodup_neighbours (h : Linked C par t)
    (hnodup : (labels t).Nodup) (hpar : ∀ w ∈ par, w ∉ labels t) (hc : c ∈ labels t) : (C c).neighbours.Nodup := by
  induction t generalizing par with
  | nil => cases hc
  | node v l r hl hr =>
    obtain ⟨hv, hleft, hright⟩ := h
    obtain ⟨hnl, hnr, hvl, hvr, hdisj⟩ := nodup_labels_node.mp hnodup
    rcases mem_labels_node.mp hc with rfl | hmem | hmem
    · rw [hv]
      refine nodup_append.mpr ⟨Option.toList_nodup _, nodup_append.mpr ⟨Option.toList_nodup _, Option.toList_nodup _,
        fun a ha b hb hab => ?_⟩, fun a ha b hb hab => ?_⟩
      · exact hdisj a (mem_labels_root (Option.mem_toList.mp ha)) (hab ▸ mem_labels_root (Option.mem_toList.mp hb))
      · refine hpar a (Option.mem_toList.mp ha) (hab ▸ mem_labels_node.mpr (.inr ?_))
        exact (mem_append.mp hb).imp (fun h => mem_labels_root (Option.mem_toList.mp h))
          fun h => mem_labels_root (Option.mem_toList.mp h)
    · exact hl hleft hnl (fun w hw => Option.some.inj hw ▸ hvl) hmem
    · exact hr hright hnr (fun w hw => Option.some.inj hw ▸ hvr) hmem

theorem Linked.map {f : α → β} {C' : β → Links β}
    (h : Linked C par t) (hC : ∀ v ∈ labels t, C' (f v) = (C v).map f) : Linked C' (par.map f) (t.map f) := by
  induction t generalizing par with
  | nil => trivial
  | node v l r hl hr =>
    obtain ⟨hv, hleft, hright⟩ := h
    refine ⟨?_, hl hleft fun w hw => hC w (mem_left hw),
      hr hright fun w hw => hC w (mem_right hw)⟩
    rw [hC v mem_self, hv, root?_map, root?_map]
    rfl

/-! ## Search trees over a span of numbers -/

/-- The numbers between `b` and `b + 2 ^ t`, moved down by `s`, as far as they are between `0` and `n`. -/
def span (s n : Nat) : Nat → Nat → BinaryTree Nat
  | 0, _ => .nil
  | t + 1, b =>
    if s < b + 2 ^ t ∧ b + 2 ^ t < n + s then .node (b + 2 ^ t - s) (span s n t b) (span s n t (b + 2 ^ t))
    else span s n t b

variable {s n : Nat}

/-- Which numbers are in the tree. -/
theorem mem_span (hs : s ≤ 1) {t b v : Nat} : v ∈ labels (span s n t b) ↔ b < v + s ∧ v + s < b + 2 ^ t ∧ 0 < v ∧ v < n := by
  induction t generalizing b v with
  | zero =>
    simp only [span, labels, not_mem_nil, Nat.pow_zero, false_iff]
    omega
  | succ t ih =>
    have h2 : 2 ^ (t + 1) = 2 ^ t + 2 ^ t := by rw [Nat.pow_succ, Nat.mul_two]
    have hpos : 0 < 2 ^ t := Nat.two_pow_pos t
    rw [span, h2]
    split
    next h =>
      rw [mem_labels_node, ih, ih]
      omega
    next h =>
      rw [ih]
      omega

theorem nodup_span (hs : s ≤ 1) (t b : Nat) : (labels (span s n t b)).Nodup := by
  induction t generalizing b with
  | zero => exact nodup_nil
  | succ t ih =>
    rw [span]
    split
    next h =>
      rw [labels, nodup_append, nodup_cons]
      refine ⟨ih b, ⟨fun hv => ?_, ih _⟩, fun v hv w hw => ?_⟩
      · have := (mem_span hs).mp hv
        omega
      · have hv := (mem_span hs).mp hv
        rcases mem_cons.mp hw with rfl | hw
        · omega
        · have hw := (mem_span hs).mp hw
          omega
    next => exact ih b

end Trees
