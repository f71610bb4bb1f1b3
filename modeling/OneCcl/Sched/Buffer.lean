import OneCcl.Async.Footprint

/-!
# Buffers and the memory of a rank

A `ccl_buffer` is a pointer and an offset into what it points to. Here a pointer is the name of the
piece of memory it came from: one of the caller's buffers, or a buffer a schedule allocated from the
buffer manager. Pieces of memory with different names do not overlap, two `ccl_buffer`s over one piece
overlap as their offsets say, and in place means that two of the caller's arguments are one buffer.

Everything is counted in elements of the collective's datatype, as the builders do before they multiply
by `dtype.size()`: all their addresses are multiples of it.
-/

namespace OneCcl

open List Function

variable {b buf inBuf outBuf inoutBuf : CclBuffer} {k cnt i : Nat} {a : BufSrc × Nat}

/-- What a buffer points into. -/
inductive BufSrc where
  | null
  | user (i : Nat)
  | alloc (sched i : Nat)
  deriving DecidableEq, Repr

/-- `ccl_buffer`: a pointer and an offset. -/
structure CclBuffer where
  src : BufSrc
  offset : Nat
  deriving DecidableEq, Repr

/-- `ccl_buffer()`. -/
def CclBuffer.empty : CclBuffer := ⟨.null, 0⟩

/-- `ccl_buffer::operator+`. -/
def CclBuffer.add (b : CclBuffer) (k : Nat) : CclBuffer := ⟨b.src, b.offset + k⟩

instance : HAdd CclBuffer Nat CclBuffer := ⟨CclBuffer.add⟩

@[simp] theorem CclBuffer.add_src (b : CclBuffer) (k : Nat) : (b + k).src = b.src := rfl

@[simp] theorem CclBuffer.add_offset (b : CclBuffer) (k : Nat) : (b + k).offset = b.offset + k := rfl

theorem CclBuffer.add_add (b : CclBuffer) (k j : Nat) : b + k + j = b + (k + j) :=
  congrArg (CclBuffer.mk b.src) (Nat.add_assoc ..)

theorem CclBuffer.add_right_cancel {a : CclBuffer} (h : a + k = b + k) : a = b := by
  obtain ⟨s, o⟩ := a
  obtain ⟨s', o'⟩ := b
  obtain ⟨rfl, h⟩ := CclBuffer.mk.inj h
  exact congrArg (CclBuffer.mk s) (Nat.add_right_cancel h)

/-- `ccl_buffer::operator bool`. -/
def CclBuffer.toBool (b : CclBuffer) : Bool := b.src ≠ .null

/-- `a <= b` on `ccl_buffer`s. The class has no such operator: both sides are converted to `bool`. -/
def CclBuffer.le (a b : CclBuffer) : Bool := !a.toBool || b.toBool

abbrev Mem (α : Type) : Type := BufSrc × Nat → α

/-- The address of a buffer's `i`-th element. -/
def CclBuffer.at (b : CclBuffer) (i : Nat) : BufSrc × Nat := (b.src, b.offset + i)

theorem CclBuffer.add_at (b : CclBuffer) (k i : Nat) : (b + k).at i = b.at (k + i) :=
  congrArg (Prod.mk b.src) (Nat.add_assoc ..)

section

variable {α : Type}

/-- The first `cnt` elements of a buffer. -/
def load (b : CclBuffer) (cnt : Nat) (m : Mem α) : List α := (range cnt).map fun i => m (b.at i)

/-- Write elements to the front of a buffer. -/
def store (b : CclBuffer) (d : List α) (m : Mem α) : Mem α := fun a =>
  if a.1 = b.src ∧ b.offset ≤ a.2 then (d[a.2 - b.offset]?).getD (m a) else m a

/-- `ccl_comp_copy`. -/
def compCopy (inBuf outBuf : CclBuffer) (cnt : Nat) (m : Mem α) : Mem α := store outBuf (load inBuf cnt m) m

/-- `ccl_comp_reduce`: the loop `inout[i] = inout[i] op in[i]`. -/
def compReduce (op : α → α → α) (inBuf : CclBuffer) (cnt : Nat) (inoutBuf : CclBuffer) (m : Mem α) : Mem α :=
  (range cnt).foldl
    (fun m i => update m (inoutBuf.at i) (op (m (inoutBuf.at i)) (m (inBuf.at i)))) m

/-! ## Reading what was written -/

@[simp] theorem length_load (b : CclBuffer) (cnt : Nat) (m : Mem α) : (load b cnt m).length = cnt := by
  rw [load, length_map, length_range]

theorem load_getElem? (b : CclBuffer) (m : Mem α) (h : i < cnt) : (load b cnt m)[i]? = some (m (b.at i)) := by
  rw [load, getElem?_map, getElem?_range h]
  rfl

variable {d : List α} {op : α → α → α}

theorem store_of_lt (h : i < d.length) (m : Mem α) : store b d m (b.at i) = d[i] := by
  unfold store CclBuffer.at
  rw [if_pos ⟨rfl, Nat.le_add_right ..⟩, Nat.add_sub_cancel_left, getElem?_eq_getElem h]
  rfl

/-- The elements of a buffer, as a set of addresses. -/
def region (b : CclBuffer) (cnt : Nat) : Set (BufSrc × Nat) :=
  {a | a.1 = b.src ∧ b.offset ≤ a.2 ∧ a.2 < b.offset + cnt}

theorem at_mem_region : b.at i ∈ region b cnt ↔ i < cnt := by
  show (b.src = b.src ∧ b.offset ≤ b.offset + i ∧ b.offset + i < b.offset + cnt) ↔ i < cnt
  constructor
  · rintro ⟨-, -, h⟩
    omega
  · intro h
    exact ⟨rfl, Nat.le_add_right .., by omega⟩

theorem at_mem_region_add : b.at i ∈ region (b + k) cnt ↔ k ≤ i ∧ i < k + cnt := by
  show (b.src = b.src ∧ b.offset + k ≤ b.offset + i ∧ b.offset + i < b.offset + k + cnt) ↔ _
  constructor
  · rintro ⟨-, h1, h2⟩
    omega
  · intro h
    exact ⟨rfl, by omega, by omega⟩

theorem exists_at_of_mem_region (h : a ∈ region b cnt) : ∃ i < cnt, a = b.at i := by
  obtain ⟨s, j⟩ := a
  obtain ⟨rfl, h1, h2⟩ : s = b.src ∧ b.offset ≤ j ∧ j < b.offset + cnt := h
  exact ⟨j - b.offset, by omega, Prod.ext rfl (by show j = b.offset + (j - b.offset); omega)⟩

/-- A write changes nothing outside the buffer. -/
theorem store_of_notMem (hd : d.length ≤ cnt) (h : a ∉ region b cnt) (m : Mem α) : store b d m a = m a := by
  unfold store
  split
  next hc =>
    have hlen : d.length ≤ a.2 - b.offset := by
      by_contra hlt
      exact h ⟨hc.1, hc.2, by omega⟩
    rw [getElem?_eq_none hlen]
    rfl
  next => rfl

theorem touches_store (b : CclBuffer) (hd : d.length ≤ cnt) : Async.Touches (store b d) (region b cnt) (region b cnt) where
  frame m a ha := store_of_notMem hd ha m
  decided m m' h a ha := by
    unfold store
    rw [h a ha]

theorem load_congr {m m' : Mem α} (h : ∀ a ∈ region b cnt, m a = m' a) : load b cnt m = load b cnt m' :=
  map_congr_left fun _ hi => h _ (at_mem_region.mpr (mem_range.mp hi))

theorem sees_load (b : CclBuffer) (cnt : Nat) : Async.Sees (load b cnt : Mem α → List α) (region b cnt) :=
  fun _ _ h => load_congr h

theorem store_load_at (h : i < cnt) (buf' : CclBuffer) (m m' : Mem α) :
    store buf (load buf' cnt m') m (buf.at i) = m' (buf'.at i) := by
  rw [store_of_lt (by rw [length_load]; exact h)]
  exact Option.some.inj ((getElem?_eq_getElem _).symm.trans (load_getElem? buf' m' h))

theorem store_load_of_notMem (h : a ∉ region buf cnt) (buf' : CclBuffer) (m m' : Mem α) :
    store buf (load buf' cnt m') m a = m a :=
  store_of_notMem (by rw [length_load]) h m

theorem compCopy_at (h : i < cnt) (m : Mem α) :
    compCopy inBuf outBuf cnt m (outBuf.at i) = m (inBuf.at i) := store_load_at h inBuf m m

theorem compCopy_of_notMem (h : a ∉ region outBuf cnt) (m : Mem α) : compCopy inBuf outBuf cnt m a = m a :=
  store_load_of_notMem h inBuf m m

theorem touches_compCopy (inBuf outBuf : CclBuffer) (cnt : Nat) :
    Async.Touches (compCopy inBuf outBuf cnt : Mem α → Mem α) (region inBuf cnt ∪ region outBuf cnt)
      (region outBuf cnt) where
  frame m a ha := compCopy_of_notMem ha m
  decided m m' h a ha := by
    obtain ⟨i, hi, rfl⟩ := exists_at_of_mem_region ha
    rw [compCopy_at hi, compCopy_at hi, h _ (.inl (at_mem_region.mpr hi))]

theorem compReduce_succ (op : α → α → α) (inBuf inoutBuf : CclBuffer) (cnt : Nat) (m : Mem α) :
    compReduce op inBuf (cnt + 1) inoutBuf m =
      update (compReduce op inBuf cnt inoutBuf m) (inoutBuf.at cnt)
        (op (compReduce op inBuf cnt inoutBuf m (inoutBuf.at cnt))
          (compReduce op inBuf cnt inoutBuf m (inBuf.at cnt))) := by
  unfold compReduce
  rw [range_succ, foldl_append]
  rfl

theorem at_injective (b : CclBuffer) {j : Nat} (h : b.at i = b.at j) : i = j :=
  Nat.add_left_cancel (Prod.mk.inj h).2

theorem compReduce_of_notMem (h : a ∉ region inoutBuf cnt) (m : Mem α) : compReduce op inBuf cnt inoutBuf m a = m a := by
  induction cnt with
  | zero => rfl
  | succ cnt ih =>
    have hne : a ≠ inoutBuf.at cnt := fun he => h (he ▸ at_mem_region.mpr (Nat.lt_succ_self cnt))
    have hsub : a ∉ region inoutBuf cnt := fun hc => h ⟨hc.1, hc.2.1, by have := hc.2.2; omega⟩
    rw [compReduce_succ, update_of_ne hne, ih hsub]

/-- Each element is reduced once, if the buffers are apart. -/
theorem compReduce_at (h : i < cnt) (hd : Disjoint (region inBuf cnt) (region inoutBuf cnt))
    (m : Mem α) : compReduce op inBuf cnt inoutBuf m (inoutBuf.at i) = op (m (inoutBuf.at i)) (m (inBuf.at i)) := by
  induction cnt with
  | zero => exact absurd h (Nat.not_lt_zero i)
  | succ cnt ih =>
    have hin : ∀ j < cnt + 1, inBuf.at j ∉ region inoutBuf (cnt + 1) := fun j hj =>
      Set.disjoint_left.mp hd (at_mem_region.mpr hj)
    have hmono : ∀ b : CclBuffer, region b cnt ⊆ region b (cnt + 1) := fun b a ha =>
      ⟨ha.1, ha.2.1, by have := ha.2.2; omega⟩
    rw [compReduce_succ]
    rcases (Nat.le_of_lt_succ h).lt_or_eq with hlt | rfl
    · rw [update_of_ne (fun he => absurd (at_injective _ he) hlt.ne),
        ih hlt (hd.mono (hmono _) (hmono _))]
    · rw [update_self, compReduce_of_notMem (fun hm => absurd (at_mem_region.mp hm) (lt_irrefl _)),
        compReduce_of_notMem (fun hm => hin i h (hmono _ hm))]

theorem touches_compReduce (op : α → α → α) (inBuf inoutBuf : CclBuffer) (cnt : Nat) :
    Async.Touches (compReduce op inBuf cnt inoutBuf) (region inBuf cnt ∪ region inoutBuf cnt)
      (region inoutBuf cnt) where
  frame m a ha := compReduce_of_notMem ha m
  decided m m' h a ha := by
    -- by the end of the loop the two memories still agree wherever the loop has looked
    have hagree : ∀ k ≤ cnt, ∀ a ∈ region inBuf cnt ∪ region inoutBuf cnt,
        compReduce op inBuf k inoutBuf m a = compReduce op inBuf k inoutBuf m' a := by
      intro k
      induction k with
      | zero => exact fun _ => h
      | succ k ih =>
        intro hk a ha
        have ih := ih (Nat.le_of_succ_le hk)
        rw [compReduce_succ, compReduce_succ, ih _ (.inr (at_mem_region.mpr hk)),
          ih _ (.inl (at_mem_region.mpr hk))]
        by_cases hak : a = inoutBuf.at k
        · rw [hak, update_self, update_self]
        · rw [update_of_ne hak, update_of_ne hak, ih a ha]
    exact hagree cnt (le_rfl) a (.inr ha)

/-- Two reductions into one buffer may be made in either order. -/
theorem compReduce_commute (op : α → α → α) [Std.Commutative op] [Std.Associative op] {inBuf' : CclBuffer}
    (hd : Disjoint (region inBuf cnt) (region inoutBuf cnt)) (hd' : Disjoint (region inBuf' cnt) (region inoutBuf cnt)) :
    Function.Commute (compReduce op inBuf cnt inoutBuf) (compReduce op inBuf' cnt inoutBuf) := by
  intro m
  funext a
  by_cases ha : a ∈ region inoutBuf cnt
  · obtain ⟨i, hi, rfl⟩ := exists_at_of_mem_region ha
    have hout : compReduce op inBuf cnt inoutBuf m (inBuf'.at i) = m (inBuf'.at i) :=
      compReduce_of_notMem (Set.disjoint_left.mp hd' (at_mem_region.mpr hi)) m
    have hout' : compReduce op inBuf' cnt inoutBuf m (inBuf.at i) = m (inBuf.at i) :=
      compReduce_of_notMem (Set.disjoint_left.mp hd (at_mem_region.mpr hi)) m
    have hassoc : ∀ x y z, op (op x y) z = op x (op y z) := Std.Associative.assoc
    have hcomm : ∀ x y, op x y = op y x := Std.Commutative.comm
    rw [compReduce_at hi hd, compReduce_at hi hd', compReduce_at hi hd', compReduce_at hi hd, hout, hout', hassoc, hassoc,
      hcomm (m (inBuf.at i))]
  · rw [compReduce_of_notMem ha, compReduce_of_notMem ha, compReduce_of_notMem ha, compReduce_of_notMem ha]

end

end OneCcl
