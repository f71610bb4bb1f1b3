import Mathlib.Algebra.Order.Ring.Int
import Mathlib.Data.List.Perm.Basic
import Mathlib.Order.OrderDual

/-!
# Eviction from the device memory cache

`evict_smallest_chunk` and `evict_largest_chunk` look for the chunk to be freed with `std::max_element` and a comparison
that is false for a used chunk on the left. So the scan goes from an unused chunk to one that comes *later* in the order it
was given, and stays at the first used chunk it gets to. What it finds is unused only if it is the last of all chunks in that
order: the largest chunk when the smallest one is asked for.
-/

namespace OneCcl

open List

/-- `memory_chunk`, as far as an eviction reads it. -/
structure MemoryChunk where
  size : Nat
  basePtr : Nat
  usedBlocks : List Bool
  deriving DecidableEq, Repr

/-- `is_chunk_used`. -/
def MemoryChunk.isUsed (chunk : MemoryChunk) : Bool := chunk.usedBlocks.any id

/-- `std::max_element` from the element with number `next` on, with the largest one so far and its number. -/
def maxElement {α : Type} (comp : α → α → Bool) (pos : Nat) (largest : α) (next : Nat) : List α → Nat × α
  | [] => (pos, largest)
  | a :: rest =>
    if comp largest a then maxElement comp next a (next + 1) rest else maxElement comp pos largest (next + 1) rest

/-- `evict_chunk`: the chunks that are left. -/
def evictChunk (compFunc : MemoryChunk → MemoryChunk → Bool) : List MemoryChunk → List MemoryChunk
  | [] => []
  | chunk :: rest =>
    let found := maxElement (fun a b => compFunc a b && !a.isUsed) 0 chunk 1 rest
    if !found.2.isUsed then (chunk :: rest).eraseIdx found.1 else chunk :: rest

def evictSmallestChunk : List MemoryChunk → List MemoryChunk := evictChunk fun a b => a.size < b.size

def evictLargestChunk : List MemoryChunk → List MemoryChunk := evictChunk fun a b => a.size > b.size

/-- **What an eviction is for**: with an unused chunk it takes away one, of those that come first in the order; used chunks
stay. -/
def EvictsFirst (le : Nat → Nat → Prop) (chunks chunks' : List MemoryChunk) : Prop :=
  (∀ c ∈ chunks, c.isUsed = true) ∧ chunks' = chunks ∨
    ∃ A c B, chunks = A ++ c :: B ∧ chunks' = A ++ B ∧ c.isUsed = false ∧
      ∀ d ∈ chunks, d.isUsed = false → le c.size d.size

section

variable {κ : Type} [LinearOrder κ] {key : Nat → κ} {compFunc : MemoryChunk → MemoryChunk → Bool}
  (hcomp : ∀ a b, compFunc a b = true ↔ key a.size < key b.size) {largest c : MemoryChunk} {pos : Nat}
  {l chunks : List MemoryChunk}

variable {comp : MemoryChunk → MemoryChunk → Bool}

theorem maxElement_getElem? (hpos : chunks[pos]? = some largest) {next : Nat} (hrest : chunks.drop next = l) :
    chunks[(maxElement comp pos largest next l).1]? = some (maxElement comp pos largest next l).2 := by
  induction l generalizing pos largest next with
  | nil => exact hpos
  | cons a l ih =>
    have hnext : chunks[next]? = some a := by rw [← head?_drop, hrest, head?_cons]
    have hdrop : chunks.drop (next + 1) = l := by rw [← tail_drop, hrest, tail_cons]
    rw [maxElement]
    split
    · exact ih hnext hdrop
    · exact ih hpos hdrop

theorem maxElement_stays (h : ∀ a ∈ l, comp largest a = false) (next : Nat) :
    maxElement comp pos largest next l = (pos, largest) := by
  induction l generalizing next with
  | nil => rfl
  | cons a l ih =>
    rw [maxElement, h a mem_cons_self, if_neg Bool.false_ne_true]
    exact ih (fun b hb => h b (mem_cons_of_mem _ hb)) _

include hcomp

theorem le_of_maxElement (next : Nat)
    (hfree : (maxElement (fun a b => compFunc a b && !a.isUsed) pos largest next l).2.isUsed = false) : ∀ d ∈ largest :: l,
      key d.size ≤ key (maxElement (fun a b => compFunc a b && !a.isUsed) pos largest next l).2.size := by
  induction l generalizing pos largest next with
  | nil => simp [maxElement]
  | cons a l ih =>
    rw [maxElement] at hfree ⊢
    split at hfree
    · next hlt =>
      simp only [hlt, if_true]
      have hall := ih _ hfree
      have hlt : key largest.size < key a.size := (hcomp _ _).mp (by simp at hlt; exact hlt.1)
      intro d hd
      rcases mem_cons.mp hd with rfl | hd
      · exact hlt.le.trans (hall a mem_cons_self)
      · exact hall d hd
    · next hno =>
      simp only [hno]
      have hall := ih _ hfree
      by_cases hused : largest.isUsed = true
      · rw [maxElement_stays fun b _ => by simp [hused]] at hfree
        exact absurd hused (by simp [hfree])
      · have hle : key a.size ≤ key largest.size := by
          rw [← not_lt, ← hcomp]
          simpa [hused] using hno
        intro d hd
        rcases mem_cons.mp hd with rfl | hd
        · exact hall d mem_cons_self
        · rcases mem_cons.mp hd with rfl | hd
          · exact hle.trans (hall largest mem_cons_self)
          · exact hall d (mem_cons_of_mem _ hd)

variable (key compFunc) in
theorem evictsFirst_iff : EvictsFirst (fun x y => key x ≤ key y) (c :: l) (evictChunk compFunc (c :: l)) ↔
    (∀ d ∈ c :: l, d.isUsed = true) ∨
      c.isUsed = false ∧ ∀ d ∈ l, key d.size ≤ key c.size ∧ (d.isUsed = false → key d.size = key c.size) := by
  set found := maxElement (fun a b => compFunc a b && !a.isUsed) 0 c 1 l with hfound
  have hget : (c :: l)[found.1]? = some found.2 := maxElement_getElem? rfl rfl
  have hevict : evictChunk compFunc (c :: l) =
      if !found.2.isUsed then (c :: l).eraseIdx found.1 else c :: l := rfl
  obtain ⟨hlen, hat⟩ := List.getElem?_eq_some_iff.mp hget
  constructor
  · rintro (⟨hall, -⟩ | ⟨A, x, B, hAB, herase, -, hmin⟩)
    · exact .inl hall
    · right
      have hfree : found.2.isUsed = false := by
        by_contra hused
        rw [hevict, if_neg (by simpa using hused), hAB] at herase
        simpa using congrArg length herase
      have hc : c.isUsed = false := by
        by_contra hused
        rw [hfound, maxElement_stays fun b _ => by simp [hused]] at hfree
        exact hused hfree
      rw [hevict, if_pos (by simp [hfree])] at herase
      -- what is left tells which chunk is gone
      have hx : x = found.2 := by
        have herased := getElem_cons_eraseIdx_perm hlen
        rw [hat, herase, hAB] at herased
        by_contra hne
        have hcount := (herased.trans perm_middle).count_eq x
        simp [Ne.symm hne] at hcount
      have hlast := le_of_maxElement hcomp 1 hfree
      have hcx := hmin c mem_cons_self hc
      rw [hx] at hmin hcx
      refine ⟨hc, fun d hd => ⟨(hlast d (mem_cons_of_mem _ hd)).trans hcx, fun hd' => ?_⟩⟩
      exact le_antisymm ((hlast d (mem_cons_of_mem _ hd)).trans hcx)
        ((hlast c mem_cons_self).trans (hmin d (mem_cons_of_mem _ hd) hd'))
  · rintro (hall | ⟨hc, hrest⟩)
    · refine .inl ⟨hall, ?_⟩
      rw [hevict, if_neg (by simpa using hall _ (mem_of_getElem? hget))]
    · have hstay : found = (0, c) := maxElement_stays (fun a ha => by
        have := not_lt.mpr (hrest a ha).1
        rw [← hcomp] at this
        simp [this]) 1
      refine .inr ⟨[], c, l, rfl, by rw [hevict, hstay]; simp [hc], hc, fun d hd hd' => ?_⟩
      rcases mem_cons.mp hd with rfl | hd
      · exact le_rfl
      · exact ((hrest d hd).2 hd').ge

end

/-- **Evictions.** The smallest and the largest of the unused chunks are evicted exactly when there is no unused chunk, or
the first chunk is unused and all chunks have its size. -/
theorem evict_correct_iff (chunks : List MemoryChunk) :
    EvictsFirst (· ≤ ·) chunks (evictSmallestChunk chunks) ∧ EvictsFirst (· ≥ ·) chunks (evictLargestChunk chunks) ↔
      (∀ c ∈ chunks, c.isUsed = true) ∨
        ∃ c rest, chunks = c :: rest ∧ c.isUsed = false ∧ ∀ d ∈ rest, d.size = c.size := by
  cases chunks with
  | nil => simp [EvictsFirst, evictSmallestChunk, evictLargestChunk, evictChunk]
  | cons c rest =>
    have hsmall := evictsFirst_iff id (fun a b => a.size < b.size) (c := c) (l := rest) fun a b => decide_eq_true_iff
    have hlarge := evictsFirst_iff OrderDual.toDual (fun a b => a.size > b.size) (c := c) (l := rest)
      fun a b => decide_eq_true_iff
    refine (and_congr hsmall hlarge).trans ?_
    constructor
    · rintro ⟨hall | ⟨hc, hs⟩, hall' | ⟨-, hl⟩⟩
      · exact .inl hall
      · exact .inl hall
      · exact .inl hall'
      · exact .inr ⟨c, rest, rfl, hc, fun d hd => le_antisymm (hs d hd).1 (hl d hd).1⟩
    · rintro (hall | ⟨c', rest', heq, hc, hsize⟩)
      · exact ⟨.inl hall, .inl hall⟩
      · obtain ⟨rfl, rfl⟩ := cons.inj heq
        refine ⟨.inr ⟨hc, fun d hd => ?_⟩, .inr ⟨hc, fun d hd => ?_⟩⟩ <;> rw [hsize d hd] <;> exact ⟨le_rfl, fun _ => rfl⟩

/-- Of two unused chunks the larger one goes when the smallest one is asked for, and the other way round. -/
theorem evict_wrong_end : evictSmallestChunk [⟨1, 0, [false]⟩, ⟨2, 64, [false]⟩] = [⟨1, 0, [false]⟩] ∧
      evictLargestChunk [⟨2, 64, [false]⟩, ⟨1, 0, [false]⟩] = [⟨2, 64, [false]⟩] ∧
      ¬ EvictsFirst (· ≤ ·) [⟨1, 0, [false]⟩, ⟨2, 64, [false]⟩] (evictSmallestChunk [⟨1, 0, [false]⟩, ⟨2, 64, [false]⟩]) ∧
      ¬ EvictsFirst (· ≥ ·) [⟨2, 64, [false]⟩, ⟨1, 0, [false]⟩] (evictLargestChunk [⟨2, 64, [false]⟩, ⟨1, 0, [false]⟩]) := by
  refine ⟨rfl, rfl, fun h => ?_, fun h => ?_⟩
  · have hright := (evictsFirst_iff id (fun a b => a.size < b.size) fun a b => decide_eq_true_iff).mp h
    simp [MemoryChunk.isUsed] at hright
  · obtain hall | ⟨-, hright⟩ :=
      (evictsFirst_iff OrderDual.toDual (fun a b => a.size > b.size) fun a b => decide_eq_true_iff).mp h
    · exact absurd (hall _ mem_cons_self) (by decide)
    · have hsize : 1 = 2 := OrderDual.toDual.injective ((hright _ mem_cons_self).2 rfl)
      omega

end OneCcl
