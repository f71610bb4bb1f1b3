import Mathlib.Data.Nat.Find
import OneCcl.Reduction.LinkedTree

/-!
# The two trees of a communicator

`ccl_bin_tree`: what a rank knows of a binary tree over the ranks, computed from its number alone. In the main tree the
height of a rank is the number of zeros its number ends in, in the other tree the number of ones; the children are half
a power of two away, and the right one is pulled in where it would be no rank. `ccl_double_tree` has both.

`exists_linkedTree`: for every size and root there is one tree with all ranks, each once, and every rank's links are
those of the tree.
-/

namespace OneCcl

open Trees Nat

/-- `ccl_bin_tree`. No neighbour is `-1` in the source. -/
structure CclBinTree where
  commSize : Nat
  rank : Nat
  isMain : Bool
  p : Option Nat
  l : Option Nat
  r : Option Nat
  deriving DecidableEq, Repr

open CclBinTree

namespace CclBinTree

/-- The loops of `calc_height`: count up over bits of one value. -/
def heightLoop (commSize rank : Nat) (bit : Bool) : Nat → Nat → Nat
  | 0, height => height
  | fuel + 1, height =>
    if rank.testBit height = bit ∧ 2 ^ height < commSize then heightLoop commSize rank bit fuel (height + 1) else height

/-- `calc_height`. The bits below `comm_size` are fewer than `comm_size`. -/
def calcHeight (commSize rank : Nat) (mainTree : Bool) : Nat :=
  if mainTree = true ∨ rank = 0 then heightLoop commSize rank false commSize 0
  else heightLoop commSize rank true commSize 0

/-- `calc_parent`. -/
def calcParent (commSize rank height : Nat) : Nat :=
  let possibleParentAsLeft := rank + 2 ^ height
  if rank.testBit (height + 1) = true ∨ commSize - 1 < possibleParentAsLeft then rank - 2 ^ height
  else possibleParentAsLeft

/-- `calc_left`. -/
def calcLeft (rank height : Nat) : Option Nat :=
  if rank ≤ 2 ^ (height - 1) then none else some (rank - 2 ^ (height - 1))

/-- `calc_right`: the height is decreased until the child is a rank. -/
def calcRight (commSize rank : Nat) : Nat → Option Nat
  | 0 => none
  | height + 1 =>
    if commSize - 1 < rank + 2 ^ height then calcRight commSize rank height else some (rank + 2 ^ height)

/-- The right child of rank `0`, which has no other neighbour. -/
def rootRight (commSize height : Nat) (isMain : Bool) : Option Nat :=
  if height = 0 then none
  else if isMain then some (2 ^ (height - 1))
  else if commSize = 2 ^ height then some (2 ^ height - 1)
  else some (2 ^ (height - 1) - 1)

def new (commSize rank : Nat) (isMain : Bool) : CclBinTree :=
  let height := calcHeight commSize rank isMain
  if rank = 0 then ⟨commSize, rank, isMain, none, none, rootRight commSize height isMain⟩
  else
    ⟨commSize, rank, isMain, some (calcParent commSize rank height),
      if 0 < height then calcLeft rank height else none, if 0 < height then calcRight commSize rank height else none⟩

/-- `swap_if_any_of`. -/
def swapIfAnyOf (val1 val2 node : Nat) : Nat := if node = val1 then val2 else if node = val2 then val1 else node

/-- `copy_with_new_root`. -/
def copyWithNewRoot (t : CclBinTree) (newRoot : Nat) : CclBinTree :=
  let copy :=
    if t.rank = newRoot ∨ t.rank = 0 then
      { new t.commSize (if t.rank = 0 then newRoot else 0) t.isMain with rank := newRoot }
    else t
  { copy with
    p := copy.p.map (swapIfAnyOf 0 newRoot)
    l := copy.l.map (swapIfAnyOf 0 newRoot)
    r := copy.r.map (swapIfAnyOf 0 newRoot) }

def links (t : CclBinTree) : Links Nat := ⟨t.p, t.l, t.r⟩

end CclBinTree

/-- `ccl_double_tree`. -/
structure CclDoubleTree where
  t1 : CclBinTree
  t2 : CclBinTree
  deriving DecidableEq, Repr

namespace CclDoubleTree

def new (commSize rank : Nat) : CclDoubleTree := ⟨.new commSize rank true, .new commSize rank false⟩

def copyWithNewRoot (t : CclDoubleTree) (newRoot : Nat) : CclDoubleTree :=
  ⟨t.t1.copyWithNewRoot newRoot, t.t2.copyWithNewRoot newRoot⟩

end CclDoubleTree

/-! ## Heights -/

namespace CclBinTree

/-- By how much the numbers of a tree are moved: a number that ends in ones is one less than one that ends in zeros. -/
def shift (isMain : Bool) : Nat := if isMain then 0 else 1

theorem shift_le_one (isMain : Bool) : shift isMain ≤ 1 := by
  cases isMain <;> decide

variable {u m : Nat}

theorem heightLoop_eq {commSize rank : Nat} {bit : Bool} (hlow : ∀ j < u, rank.testBit j = bit ∧ 2 ^ j < commSize)
    (hstop : ¬ (rank.testBit u = bit ∧ 2 ^ u < commSize)) (fuel height : Nat) (hle : height ≤ u)
    (hfuel : u ≤ height + fuel) : heightLoop commSize rank bit fuel height = u := by
  induction fuel generalizing height with
  | zero =>
    rw [heightLoop]
    omega
  | succ fuel ih =>
    rw [heightLoop]
    rcases hle.lt_or_eq with h | rfl
    · rw [if_pos (hlow height h)]
      exact ih (height + 1) h (by omega)
    · rw [if_neg hstop]

theorem testBit_shift (isMain : Bool) (m u j : Nat) : (2 ^ (u + 1) * m + 2 ^ u - shift isMain).testBit j =
      if j < u then !isMain else if j = u then isMain else m.testBit (j - (u + 1)) := by
  have hpos := Nat.two_pow_pos u
  have h2 : 2 ^ (u + 1) = 2 ^ u + 2 ^ u := by rw [Nat.pow_succ, Nat.mul_two]
  have hle : shift isMain ≤ 2 ^ u := (shift_le_one isMain).trans hpos
  rw [Nat.add_sub_assoc hle, Nat.testBit_two_pow_mul_add m (by omega)]
  cases isMain with
  | true =>
    show (if j < u + 1 then (2 ^ u).testBit j else _) = _
    rw [Nat.testBit_two_pow]
    rcases lt_trichotomy j u with h | rfl | h
    · rw [if_pos (by omega), if_pos h]
      exact decide_eq_false (by omega)
    · rw [if_pos (by omega), if_neg (Nat.lt_irrefl j), if_pos rfl]
      exact decide_eq_true rfl
    · rw [if_neg (by omega), if_neg (by omega), if_neg (by omega)]
  | false =>
    show (if j < u + 1 then (2 ^ u - 1).testBit j else _) = _
    rw [Nat.testBit_two_pow_sub_one]
    rcases lt_trichotomy j u with h | rfl | h
    · rw [if_pos (by omega), if_pos h]
      exact decide_eq_true h
    · rw [if_pos (by omega), if_neg (Nat.lt_irrefl j), if_pos rfl]
      exact decide_eq_false (Nat.lt_irrefl j)
    · rw [if_neg (by omega), if_neg (by omega), if_neg (by omega)]

theorem calcHeight_eq {n : Nat} (isMain : Bool) (hpos : shift isMain < 2 ^ (u + 1) * m + 2 ^ u)
    (hlt : 2 ^ (u + 1) * m + 2 ^ u < n + shift isMain) :
    calcHeight n (2 ^ (u + 1) * m + 2 ^ u - shift isMain) isMain = u := by
  have hs := shift_le_one isMain
  have hloop : heightLoop n (2 ^ (u + 1) * m + 2 ^ u - shift isMain) (!isMain) n 0 = u := by
    have hu : u < 2 ^ u := Nat.lt_two_pow_self
    refine heightLoop_eq (fun j hj => ⟨?_, ?_⟩) (fun h => ?_) n 0 (zero_le u) (by omega)
    · rw [testBit_shift, if_pos hj]
    · have : 2 ^ j < 2 ^ u := Nat.pow_lt_pow_right (by decide) hj
      omega
    · rw [testBit_shift, if_neg (lt_irrefl u), if_pos rfl] at h
      cases isMain <;> cases h.1
  cases isMain with
  | true => exact (if_pos (.inl rfl)).trans hloop
  | false =>
    refine (if_neg ?_).trans hloop
    rintro (h | h)
    · cases h
    · have hpos : 1 < 2 ^ (u + 1) * m + 2 ^ u := hpos
      have h : 2 ^ (u + 1) * m + 2 ^ u - 1 = 0 := h
      omega

/-! ## The ranks but the first make a search tree -/

section

variable {n : Nat} (isMain : Bool)

theorem calcRight_eq {x : Nat} (hx : shift isMain < x) (t : Nat) :
    calcRight n (x - shift isMain) t = root? (span (shift isMain) n t x) := by
  induction t with
  | zero => rfl
  | succ t ih =>
    have hpos := Nat.two_pow_pos t
    rw [calcRight, span]
    by_cases h : x + 2 ^ t < n + shift isMain
    · rw [if_neg (by omega), if_pos ⟨by omega, h⟩]
      exact congrArg some (by omega)
    · rw [if_pos (by omega), if_neg fun hc => h hc.2, ih]

theorem calcLeft_eq {b t : Nat} (hlt : b + 2 ^ t < n + shift isMain) :
    (if 0 < t then calcLeft (b + 2 ^ t - shift isMain) t else none) = root? (span (shift isMain) n t b) := by
  have hs := shift_le_one isMain
  cases t with
  | zero => rfl
  | succ t =>
    have h2 : 2 ^ (t + 1) = 2 ^ t + 2 ^ t := by rw [Nat.pow_succ, Nat.mul_two]
    have hpos := Nat.two_pow_pos t
    rw [if_pos (Nat.succ_pos t), calcLeft, Nat.add_sub_cancel, span, h2]
    by_cases h : shift isMain < b + 2 ^ t
    · rw [if_neg (by omega), if_pos ⟨h, by omega⟩]
      exact congrArg some (by omega)
    · -- the only number left out is the root's
      obtain rfl : t = 0 := by
        by_contra ht
        have := Nat.lt_two_pow_self (n := t)
        omega
      rw [if_pos (by omega), if_neg fun hc => h hc.1]
      rfl

theorem calcParent_left (hm : m % 2 = 0) (hlt : 2 ^ (u + 1) * m + 2 ^ (u + 1) < n + shift isMain) :
    calcParent n (2 ^ (u + 1) * m + 2 ^ u - shift isMain) u = 2 ^ (u + 1) * m + 2 ^ (u + 1) - shift isMain := by
  have hs := shift_le_one isMain
  have hpos := Nat.two_pow_pos u
  have h2 : 2 ^ (u + 1) = 2 ^ u + 2 ^ u := by rw [Nat.pow_succ, Nat.mul_two]
  have hbit : (2 ^ (u + 1) * m + 2 ^ u - shift isMain).testBit (u + 1) = false := by
    rw [testBit_shift, if_neg (by omega), if_neg (by omega), Nat.sub_self, Nat.testBit_zero]
    exact decide_eq_false (by omega)
  unfold calcParent
  rw [if_neg]
  · omega
  · rintro (h | h)
    · rw [hbit] at h
      cases h
    · omega

theorem calcParent_right (h : m % 2 = 1 ∨ n + shift isMain ≤ 2 ^ (u + 1) * m + 2 ^ (u + 1)) :
    calcParent n (2 ^ (u + 1) * m + 2 ^ u - shift isMain) u = 2 ^ (u + 1) * m - shift isMain := by
  have hpos := Nat.two_pow_pos u
  have h2 : 2 ^ (u + 1) = 2 ^ u + 2 ^ u := by rw [Nat.pow_succ, Nat.mul_two]
  unfold calcParent
  rw [if_pos]
  · omega
  · rcases h with h | h
    · left
      rw [testBit_shift, if_neg (by omega), if_neg (by omega), Nat.sub_self, Nat.testBit_zero]
      exact decide_eq_true h
    · right
      omega

theorem new_links (hpos : shift isMain < 2 ^ (u + 1) * m + 2 ^ u) (hlt : 2 ^ (u + 1) * m + 2 ^ u < n + shift isMain) :
    (new n (2 ^ (u + 1) * m + 2 ^ u - shift isMain) isMain).links =
      ⟨some (calcParent n (2 ^ (u + 1) * m + 2 ^ u - shift isMain) u), root? (span (shift isMain) n u (2 ^ (u + 1) * m)),
        root? (span (shift isMain) n u (2 ^ (u + 1) * m + 2 ^ u))⟩ := by
  unfold new
  rw [calcHeight_eq isMain hpos hlt, if_neg (by omega)]
  show Links.mk _ _ _ = _
  rw [calcLeft_eq isMain hlt, calcRight_eq isMain hpos]
  cases u with
  | zero => rfl
  | succ u => rw [if_pos (succ_pos u)]

/-- **A span is linked.** The parent of its root is all there is to know from outside. -/
theorem linked_span (t m par : Nat) (hpar : ∀ u < t, shift isMain < 2 ^ t * m + 2 ^ u →
      2 ^ t * m + 2 ^ u < n + shift isMain → (∀ w, u < w → w < t → n + shift isMain ≤ 2 ^ t * m + 2 ^ w) →
      calcParent n (2 ^ t * m + 2 ^ u - shift isMain) u = par) :
    Linked (fun v => (new n v isMain).links) (some par) (span (shift isMain) n t (2 ^ t * m)) := by
  induction t generalizing m par with
  | zero => trivial
  | succ t ih =>
    have h2 : ∀ k, 2 ^ (t + 1) * k = 2 ^ t * (2 * k) := fun k => by rw [pow_succ, mul_assoc]
    have hright : 2 ^ (t + 1) * m + 2 ^ t = 2 ^ t * (2 * m + 1) := by rw [h2, mul_succ]
    rw [span]
    split
    next h =>
      refine ⟨?_, ?_, ?_⟩
      · show (new n _ isMain).links = _
        rw [new_links isMain h.1 h.2, hpar t (lt_succ_self t) h.1 h.2 fun w hw hw' => by omega]
      · rw [h2]
        refine ih (2 * m) _ fun u hu hlo hhi hmax => ?_
        -- everything below the middle is a rank, so the next one down is its left child
        obtain rfl : t = u + 1 := by
          by_contra hne
          have hmax := hmax (u + 1) (lt_succ_self u) (by omega)
          have : 2 ^ (u + 1) < 2 ^ t := Nat.pow_lt_pow_right (by decide) (by omega)
          rw [← h2] at hmax
          omega
        rw [h2] at h
        rw [calcParent_left isMain (by omega) h.2]
      · rw [hright]
        refine ih (2 * m + 1) _ fun u hu hlo hhi hmax => ?_
        obtain ⟨d, rfl⟩ : ∃ d, t = u + 1 + d := ⟨t - (u + 1), by omega⟩
        have hd : 2 ^ (u + 1 + d) * (2 * m + 1) = 2 ^ (u + 1) * (2 ^ d * (2 * m + 1)) := by
          rw [pow_add, mul_assoc]
        rw [hd] at hmax ⊢
        rw [calcParent_right isMain]
        rcases Nat.eq_zero_or_pos d with rfl | hd
        · left
          omega
        · exact .inr (hmax (u + 1) (lt_succ_self u) (by omega))
    next h =>
      rw [h2]
      refine ih (2 * m) _ fun u hu hlo hhi hmax => ?_
      rw [← h2] at hlo hhi hmax ⊢
      refine hpar u (by omega) hlo hhi fun w hw hw' => ?_
      rcases (le_of_lt_succ hw').lt_or_eq with hw' | rfl
      · exact hmax w hw hw'
      · by_contra hlt
        refine h ⟨?_, by omega⟩
        have : 2 ^ u < 2 ^ w := Nat.pow_lt_pow_right (by decide) hw
        omega

/-! ## The whole tree -/

theorem calcHeight_zero : n ≤ 2 ^ calcHeight n 0 isMain ∧ ∀ j < calcHeight n 0 isMain, 2 ^ j < n := by
  have hex : ∃ h, n ≤ 2 ^ h := ⟨n, Nat.lt_two_pow_self.le⟩
  have hlow : ∀ j < Nat.find hex, 2 ^ j < n := fun j hj => not_le.mp (Nat.find_min hex hj)
  have heq : calcHeight n 0 isMain = Nat.find hex := by
    refine (if_pos (.inr rfl)).trans (heightLoop_eq (fun j hj => ⟨zero_testBit j, hlow j hj⟩) (fun h => ?_) n 0
      (zero_le _) ?_)
    · exact absurd h.2 ((Nat.find_spec hex).not_gt)
    · exact Nat.find_min' hex (by rw [Nat.zero_add]; exact Nat.lt_two_pow_self.le)
  rw [heq]
  exact ⟨Nat.find_spec hex, hlow⟩

theorem rootRight_eq : rootRight n (calcHeight n 0 isMain) isMain =
    root? (span (shift isMain) n (calcHeight n 0 isMain + 1) 0) := by
  obtain ⟨hle, hlow⟩ := calcHeight_zero (n := n) isMain
  generalize calcHeight n 0 isMain = h at hle hlow
  have hstep : ∀ t, span (shift isMain) n (t + 1) 0 = if shift isMain < 2 ^ t ∧ 2 ^ t < n + shift isMain then
      .node (2 ^ t - shift isMain) (span (shift isMain) n t 0) (span (shift isMain) n t (2 ^ t))
      else span (shift isMain) n t 0 := fun t => by rw [span, zero_add]
  cases isMain with
  | true =>
    -- the power above the largest rank is no rank, the one below is
    rw [hstep, if_neg fun hc => absurd (show 2 ^ h < n from hc.2) hle.not_gt]
    cases h with
    | zero => rfl
    | succ h =>
      have hlt := hlow h (lt_succ_self h)
      rw [hstep, if_pos ⟨Nat.two_pow_pos h, hlt⟩]
      rfl
  | false =>
    cases h with
    | zero =>
      rw [hstep, if_neg fun hc => absurd (show 1 < 2 ^ 0 from hc.1) (by decide)]
      rfl
    | succ h =>
      have hlt := hlow h (lt_succ_self h)
      have h2 : 2 ^ (h + 1) = 2 ^ h + 2 ^ h := by rw [pow_succ, mul_two]
      have hs : shift false = 1 := rfl
      by_cases heq : n = 2 ^ (h + 1)
      · rw [hstep, if_pos (by omega)]
        exact if_pos heq
      · rw [hstep, if_neg (by omega), hstep, if_pos (by omega)]
        exact if_neg heq

/-- **The links of all ranks are those of one tree** with every rank in it once, and rank `0` on top. -/
theorem exists_linkedTree_zero (hn : 0 < n) : ∃ t, root? t = some 0 ∧ (labels t).Nodup ∧ (∀ v, v ∈ labels t ↔ v < n) ∧
      Linked (fun v => (new n v isMain).links) none t := by
  have hs := shift_le_one isMain
  obtain ⟨hle, -⟩ := calcHeight_zero (n := n) isMain
  have hpow : ∀ h, 2 ^ (h + 1) = 2 ^ h + 2 ^ h := fun h => by rw [pow_succ, mul_two]
  refine ⟨.node 0 .nil (span (shift isMain) n (calcHeight n 0 isMain + 1) 0), rfl, ?_, fun v => ?_, ?_, trivial, ?_⟩
  · refine List.nodup_cons.mpr ⟨fun h => ?_, nodup_span hs _ _⟩
    exact absurd ((mem_span hs).mp h).2.2.1 (lt_irrefl 0)
  · rw [mem_labels_node, mem_span hs]
    show _ ∨ v ∈ [] ∨ _ ↔ _
    rcases Nat.eq_zero_or_pos v with rfl | hv
    · exact iff_of_true (.inl rfl) hn
    · simp only [List.not_mem_nil, false_or]
      omega
  · show (new n 0 isMain).links = _
    unfold new
    rw [if_pos rfl, rootRight_eq isMain]
    rfl
  · have hspan := linked_span (n := n) isMain (calcHeight n 0 isMain + 1) 0 0 fun u hu hlo hhi hmax => ?_
    · rwa [mul_zero] at hspan
    · -- there is no rank where the parent of a left child would be
      have h := calcParent_right (n := n) isMain (m := 0) (u := u) (.inr ?_)
      · rwa [Nat.mul_zero, Nat.zero_sub] at h
      · rw [mul_zero]
        rcases (le_of_lt_succ hu).lt_or_eq with hlt | rfl
        · exact hmax (u + 1) (lt_succ_self u) (succ_lt_succ hlt)
        · have := hpow (calcHeight n 0 isMain)
          omega

/-! ### Another root -/

theorem new_rank (commSize rank : Nat) : (new commSize rank isMain).rank = rank := by
  unfold new
  split <;> rfl

theorem new_commSize (commSize rank : Nat) : (new commSize rank isMain).commSize = commSize := by
  unfold new
  split <;> rfl

theorem new_isMain (commSize rank : Nat) : (new commSize rank isMain).isMain = isMain := by
  unfold new
  split <;> rfl

theorem swapIfAnyOf_swapIfAnyOf (a b v : Nat) : swapIfAnyOf a b (swapIfAnyOf a b v) = v := by
  unfold swapIfAnyOf
  split <;> split <;> (try split) <;> omega

theorem copyWithNewRoot_links (n root v : Nat) : ((new n (swapIfAnyOf 0 root v) isMain).copyWithNewRoot root).links =
      (new n v isMain).links.map (swapIfAnyOf 0 root) := by
  have hcopy : ∀ w, (if w = root ∨ w = 0 then
      { new n (if w = 0 then root else 0) isMain with rank := root } else new n w isMain).links =
        (new n (swapIfAnyOf 0 root w) isMain).links := by
    intro w
    unfold swapIfAnyOf
    by_cases h0 : w = 0
    · rw [if_pos (.inr h0), if_pos h0, if_pos h0]
      rfl
    · by_cases hr : w = root
      · rw [if_pos (.inl hr), if_neg h0, if_neg h0, if_pos hr]
        rfl
      · rw [if_neg (by omega), if_neg h0, if_neg hr]
  have hlinks : ((new n (swapIfAnyOf 0 root v) isMain).copyWithNewRoot root).links =
      ((if swapIfAnyOf 0 root v = root ∨ swapIfAnyOf 0 root v = 0 then
        { new n (if swapIfAnyOf 0 root v = 0 then root else 0) isMain with rank := root }
        else new n (swapIfAnyOf 0 root v) isMain).links).map (swapIfAnyOf 0 root) := by
    unfold copyWithNewRoot
    rw [new_rank, new_commSize, new_isMain]
    rfl
  rw [hlinks, hcopy, swapIfAnyOf_swapIfAnyOf]

variable {root v : Nat}

/-- **The tree of any root.** -/
theorem exists_linkedTree (hroot : root < n) : ∃ t, root? t = some root ∧ (labels t).Nodup ∧ (∀ v, v ∈ labels t ↔ v < n) ∧
      Linked (fun v => ((new n v isMain).copyWithNewRoot root).links) none t := by
  obtain ⟨t, htop, hnodup, hmem, hlinked⟩ := exists_linkedTree_zero isMain (zero_lt_of_lt hroot)
  have hinj : Function.Injective (swapIfAnyOf 0 root) := fun v w h => by
    rw [← swapIfAnyOf_swapIfAnyOf 0 root v, h, swapIfAnyOf_swapIfAnyOf]
  have hlt : ∀ v, swapIfAnyOf 0 root v < n ↔ v < n := by
    intro v
    unfold swapIfAnyOf
    split
    · omega
    · split <;> omega
  refine ⟨t.map (swapIfAnyOf 0 root), ?_, ?_, fun v => ?_, ?_⟩
  · rw [root?_map, htop]
    rfl
  · rw [labels_map]
    exact hnodup.map hinj
  · rw [labels_map, List.mem_map]
    constructor
    · rintro ⟨w, hw, rfl⟩
      exact (hlt w).mpr ((hmem w).mp hw)
    · intro hv
      exact ⟨swapIfAnyOf 0 root v, (hmem _).mpr ((hlt v).mpr hv), swapIfAnyOf_swapIfAnyOf 0 root v⟩
  · exact hlinked.map fun v _ => copyWithNewRoot_links isMain n root v

/-! ### Leaves -/

def IsLeaf (t : CclBinTree) : Prop := t.l = none ∧ t.r = none

theorem new_isLeaf (hv : v ≠ 0) (hbit : v.testBit 0 = isMain) : (new n v isMain).IsLeaf := by
  have hloop : ∀ bit fuel, bit ≠ isMain → heightLoop n v bit fuel 0 = 0 := by
    intro bit fuel hne
    cases fuel with
    | zero => rfl
    | succ fuel => exact if_neg fun h => hne (h.1.symm.trans hbit)
  have hheight : calcHeight n v isMain = 0 := by
    unfold calcHeight
    cases isMain with
    | true => exact hloop false n Bool.false_ne_true
    | false => simpa [hv] using hloop true n Bool.true_eq_false.mp
  simp [IsLeaf, new, hv, hheight]

theorem copyWithNewRoot_isLeaf (h : (new n (swapIfAnyOf 0 root v) isMain).IsLeaf) :
    ((new n v isMain).copyWithNewRoot root).IsLeaf := by
  have hlinks := copyWithNewRoot_links isMain n root (swapIfAnyOf 0 root v)
  rw [swapIfAnyOf_swapIfAnyOf] at hlinks
  have hl := congrArg Links.left hlinks
  have hr := congrArg Links.right hlinks
  refine ⟨hl.trans ?_, hr.trans ?_⟩
  · exact congrArg (Option.map _) h.1
  · exact congrArg (Option.map _) h.2

end

end CclBinTree

namespace CclDoubleTree

/-- What the ranks know of their two trees fits together: each tree is one binary tree over all ranks with `root` on top,
whose links the ranks have, and only `root` has children in both. -/
structure Spans (d : Nat → CclDoubleTree) (root n : Nat) : Prop where
  first : ∃ t, root? t = some root ∧ (labels t).Nodup ∧ (∀ v, v ∈ labels t ↔ v < n) ∧ Linked (fun v => (d v).t1.links) none t
  second : ∃ t, root? t = some root ∧ (labels t).Nodup ∧ (∀ v, v ∈ labels t ↔ v < n) ∧ Linked (fun v => (d v).t2.links) none t
  leaf : ∀ v, v ≠ root → (d v).t1.IsLeaf ∨ (d v).t2.IsLeaf

theorem new_leaf (n : Nat) {v : Nat} (hv : v ≠ 0) : (new n v).t1.IsLeaf ∨ (new n v).t2.IsLeaf := by
  cases hbit : v.testBit 0 with
  | true => exact .inl (new_isLeaf true hv hbit)
  | false => exact .inr (new_isLeaf false hv hbit)

/-- **Double trees**, with rank `0` on top and with any other rank. -/
theorem double_tree_spans (n : Nat) (root : Fin n) :
    Spans (new n) 0 n ∧ Spans (fun v => (new n v).copyWithNewRoot root) root n := by
  have hn := root.pos
  refine ⟨⟨exists_linkedTree_zero true hn, exists_linkedTree_zero false hn,
    fun v hv => new_leaf n hv⟩, ⟨exists_linkedTree true root.2, exists_linkedTree false root.2,
    fun v hv => ?_⟩⟩
  have hne : swapIfAnyOf 0 root v ≠ 0 := by
    intro h
    refine hv ?_
    rw [← swapIfAnyOf_swapIfAnyOf 0 root v, h]
    exact if_pos rfl
  exact (new_leaf n hne).imp (copyWithNewRoot_isLeaf true) (copyWithNewRoot_isLeaf false)

end CclDoubleTree

end OneCcl
