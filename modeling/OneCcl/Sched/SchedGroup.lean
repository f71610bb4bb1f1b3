import Mathlib.Algebra.Order.Ring.Int
import Mathlib.Data.List.Basic

/-!
# The memory of a group of chunks

A group hands out regions of the pool that it was made with by moving a cursor (`allocate`). In any run, copies of groups
included, they are aligned, inside the pool and apart (`Bumped.run`). Whether an address is in the pool is tested with the
bytes that are left in place of the pool's size, so every region is known only as long as the regions end in the first
half of the pool (`regions_known_of_halves`).
-/

namespace OneCcl

open List

/-- The allocator of a group. The null pointer is `0`. -/
structure SchedGroup where
  allocCount : Nat
  memoryContext : Nat
  memoryContextBase : Nat
  memoryContextSize : Nat

namespace SchedGroup

def new (memoryContext memoryContextSize : Nat) : SchedGroup := ⟨0, memoryContext, memoryContext, memoryContextSize⟩

/-- The copy constructor. -/
def copy (other : SchedGroup) : SchedGroup := new other.memoryContextBase other.memoryContextSize

def alignUp (alignment ptr : Nat) : Nat := (ptr + (alignment - 1)) / alignment * alignment

/-- `std::align`: the aligned pointer and the space from it on, if it has room for the bytes. -/
def align (alignment size ptr space : Nat) : Option (Nat × Nat) :=
  if alignUp alignment ptr - ptr + size ≤ space then
    some (alignUp alignment ptr, space - (alignUp alignment ptr - ptr))
  else none

def allocate (g : SchedGroup) (bytes alignment : Nat) : Option Nat × SchedGroup :=
  if g.memoryContext = 0 then (none, g)
  else
    match align alignment bytes g.memoryContext g.memoryContextSize with
    | some (ret, space) => (some ret, ⟨g.allocCount + 1, ret + bytes, g.memoryContextBase, space - bytes⟩)
    | none => (none, g)

def isPointerWithinMemoryContext (g : SchedGroup) (ptr : Nat) : Bool :=
  g.memoryContextBase ≤ ptr && ptr < g.memoryContextBase + g.memoryContextSize

theorem le_alignUp {a : Nat} (ha : 0 < a) (ptr : Nat) : ptr ≤ alignUp a ptr := by
  have hdiv := Nat.div_add_mod' (ptr + (a - 1)) a
  have hmod := Nat.mod_lt (ptr + (a - 1)) ha
  unfold alignUp
  omega

/-- A region that was handed out. -/
structure Region where
  start : Nat
  bytes : Nat
  alignment : Nat

/-- A group in use, with the size of its pool and the regions it has handed out, the last one first. -/
structure InUse extends SchedGroup where
  pool : Nat
  regions : List Region

def InUse.new (base size : Nat) : InUse := ⟨.new base size, size, []⟩

inductive Call where
  | allocate (bytes log2Alignment : Nat)
  | copy

/-- Behind `copy` the run goes on with the copy. A run of the group itself does not have the call. -/
def InUse.call (u : InUse) : Call → InUse
  | .allocate bytes k =>
    let (ret, group) := u.allocate bytes (2 ^ k)
    ⟨group, u.pool, (ret.map fun start => ⟨start, bytes, 2 ^ k⟩).toList ++ u.regions⟩
  | .copy => ⟨u.copy, u.memoryContextSize, []⟩

def InUse.run (u : InUse) (calls : List Call) : InUse := calls.foldl InUse.call u

/-- Where the last region ends that is not empty. -/
def lastEnd (base : Nat) : List Region → Nat
  | [] => base
  | r :: regions => if r.bytes = 0 then lastEnd base regions else r.start + r.bytes

/-- The call asks for a region that ends in the first half of the pool, or for one that does not fit. An empty region may
end further back, if what is behind it has room for the other ones. -/
def InUse.InHalf (u : InUse) : Call → Prop
  | .allocate bytes k =>
    let ret := alignUp (2 ^ k) u.memoryContext
    (if bytes = 0 then lastEnd u.memoryContextBase u.regions else ret + bytes) + (ret + bytes) ≤
        2 * u.memoryContextBase + u.pool ∨
      u.memoryContextSize < ret - u.memoryContext + bytes
  | .copy => True

/-- Each call of the run does. -/
def InUse.Halves (u : InUse) : List Call → Prop
  | [] => True
  | c :: calls => u.InHalf c ∧ (u.call c).Halves calls

theorem InUse.call_allocate (u : InUse) (bytes k : Nat) :
    u.call (.allocate bytes k) = u ∨ ∃ a, a = alignUp (2 ^ k) u.memoryContext ∧
      a - u.memoryContext + bytes ≤ u.memoryContextSize ∧
        u.call (.allocate bytes k) = ⟨⟨u.allocCount + 1, a + bytes, u.memoryContextBase,
          u.memoryContextSize - (a - u.memoryContext) - bytes⟩, u.pool, ⟨a, bytes, 2 ^ k⟩ :: u.regions⟩ := by
  unfold InUse.call allocate align
  by_cases hnull : u.memoryContext = 0
  · exact .inl (by simp [hnull])
  by_cases hfits : alignUp (2 ^ k) u.memoryContext - u.memoryContext + bytes ≤ u.memoryContextSize
  · exact .inr ⟨_, rfl, hfits, by simp [hnull, hfits]⟩
  · exact .inl (by simp [hfits])

variable {base size : Nat} {u : InUse}

/-- The cursor is behind all regions, and what is left is what is behind the cursor. -/
structure Bumped (base size : Nat) (u : InUse) : Prop where
  base_eq : u.memoryContextBase = base
  pool_le : u.pool ≤ size
  le_cursor : base ≤ u.memoryContext
  left_eq : u.memoryContext + u.memoryContextSize = base + u.pool
  regions : ∀ r ∈ u.regions, r.alignment ∣ r.start ∧ base ≤ r.start ∧ r.start + r.bytes ≤ u.memoryContext
  apart : u.regions.Pairwise fun r r' => r'.start + r'.bytes ≤ r.start

/-- A call moves the cursor behind what it gives out. -/
theorem Bumped.call (h : Bumped base size u) (c : Call) : Bumped base size (u.call c) := by
  have ⟨hbase, hpool, hcursor, hleft, hregions, hapart⟩ := h
  cases c with
  | copy =>
    have hle : u.memoryContextSize ≤ size := by omega
    exact ⟨hbase, hle, Nat.le_of_eq hbase.symm, congrArg (· + _) hbase, forall_mem_nil _, .nil⟩
  | allocate bytes k =>
    have hup := le_alignUp (Nat.two_pow_pos k) u.memoryContext
    obtain hsame | ⟨a, ha, hfits, heq⟩ := u.call_allocate bytes k
    · rwa [hsame]
    rw [← ha] at hup
    rw [heq]
    refine ⟨hbase, hpool, ?_, ?_, forall_mem_cons.mpr ⟨⟨?_, Nat.le_trans hcursor hup, Nat.le_refl _⟩, ?_⟩, hapart.cons ?_⟩
    · exact Nat.le_trans (Nat.le_trans hcursor hup) (Nat.le_add_right ..)
    · dsimp only
      omega
    · exact ha ▸ Nat.dvd_mul_left ..
    · intro r hr
      obtain ⟨hdvd, hge, hend⟩ := hregions r hr
      exact ⟨hdvd, hge, Nat.le_trans (Nat.le_trans hend hup) (Nat.le_add_right ..)⟩
    · exact fun r hr => Nat.le_trans (hregions r hr).2.2 hup

/-- So it is behind all regions after any calls. -/
theorem Bumped.run (h : Bumped base size u) (calls : List Call) : Bumped base size (u.run calls) := by
  induction calls generalizing u with
  | nil => exact h
  | cons c calls ih => exact ih (h.call c)

theorem Bumped.new (base size : Nat) : Bumped base size (.new base size) :=
  ⟨rfl, Nat.le_refl _, Nat.le_refl _, rfl, forall_mem_nil _, .nil⟩

theorem le_lastEnd {regions : List Region} (h : regions.Pairwise fun r r' => r'.start + r'.bytes ≤ r.start)
    (hbase : ∀ r ∈ regions, base ≤ r.start) {r : Region} (hr : r ∈ regions) (hpos : 0 < r.bytes) :
    r.start + r.bytes ≤ lastEnd base regions := by
  induction regions with
  | nil => cases hr
  | cons r' regions ih =>
    obtain ⟨hlast, hrest⟩ := pairwise_cons.mp h
    rw [lastEnd]
    split
    next hempty =>
      rcases mem_cons.mp hr with rfl | hr
      · omega
      · exact ih hrest (fun r hr => hbase r (mem_cons_of_mem _ hr)) hr
    next =>
      rcases mem_cons.mp hr with rfl | hr
      · exact Nat.le_refl _
      · exact Nat.le_trans (hlast r hr) (Nat.le_add_right ..)

/-- The regions that are not empty end within what the test takes for the pool. -/
def InUse.Known (u : InUse) : Prop :=
  ∀ r ∈ u.regions, 0 < r.bytes → r.start + r.bytes ≤ u.memoryContextBase + u.memoryContextSize

/-- A call in the first half of the pool keeps the regions known. -/
theorem InUse.Known.call (h : u.Known) (hu : Bumped base size u) {c : Call} (hc : u.InHalf c) : (u.call c).Known := by
  obtain ⟨hbase, -, hcursor, hleft, hregions, hapart⟩ := hu
  cases c with
  | copy => exact forall_mem_nil _
  | allocate bytes k =>
    have hup := le_alignUp (Nat.two_pow_pos k) u.memoryContext
    obtain hsame | ⟨a, ha, hfits, heq⟩ := u.call_allocate bytes k
    · rwa [hsame]
    have hc : (if bytes = 0 then lastEnd u.memoryContextBase u.regions else a + bytes) + (a + bytes) ≤
        2 * u.memoryContextBase + u.pool := (ha ▸ hc.resolve_right (ha ▸ Nat.not_lt.mpr hfits) :)
    rw [← ha] at hup
    rw [heq]
    by_cases hempty : bytes = 0
    · rw [if_pos hempty] at hc
      refine forall_mem_cons.mpr ⟨fun hpos => absurd hempty hpos.ne', fun r hr hpos => ?_⟩
      have hlast := le_lastEnd hapart (fun r hr => (hregions r hr).2.1) hr hpos
      rw [← hbase] at hlast
      dsimp only
      omega
    · rw [if_neg hempty] at hc
      have hend : a + bytes ≤ u.memoryContextBase + (u.memoryContextSize - (a - u.memoryContext) - bytes) := by omega
      refine forall_mem_cons.mpr ⟨fun _ => hend, fun r hr _ => Nat.le_trans ?_ hend⟩
      exact Nat.le_trans (Nat.le_trans (hregions r hr).2.2 hup) (Nat.le_add_right ..)

theorem InUse.Known.run (h : u.Known) (hu : Bumped base size u) {calls : List Call} (hcalls : u.Halves calls) :
    (u.run calls).Known := by
  induction calls generalizing u with
  | nil => exact h
  | cons c calls ih => exact ih (h.call hu hcalls.1) (hu.call c) hcalls.2

/-- In a run whose regions end in the first half of the pool, the regions are aligned, in the pool and apart, the test
knows all of their addresses, and none outside of the pool. -/
theorem regions_known_of_halves (base size : Nat) (calls : List Call) (hcalls : (InUse.new base size).Halves calls) :
    let u := (InUse.new base size).run calls
    u.pool ≤ size ∧
      (∀ r ∈ u.regions, r.alignment ∣ r.start ∧ base ≤ r.start ∧ r.start + r.bytes ≤ base + u.pool ∧
        ∀ p, r.start ≤ p → p < r.start + r.bytes → u.isPointerWithinMemoryContext p = true) ∧
      u.regions.Pairwise (fun r r' => r'.start + r'.bytes ≤ r.start) ∧
      ∀ p, p < base ∨ base + u.pool ≤ p → u.isPointerWithinMemoryContext p = false := by
  intro u
  obtain ⟨hbase, hpool, hcursor, hleft, hregions, hapart⟩ : Bumped base size u := (Bumped.new base size).run calls
  have hknown : u.Known := InUse.Known.run (u := .new base size) (forall_mem_nil _) (.new base size) hcalls
  refine ⟨hpool, fun r hr => ?_, hapart, fun p hp => ?_⟩
  · obtain ⟨hdvd, hge, hend⟩ := hregions r hr
    refine ⟨hdvd, hge, by omega, fun p hlo hhi => ?_⟩
    have hin := hknown r hr (by omega)
    simp only [isPointerWithinMemoryContext, Bool.and_eq_true, decide_eq_true_iff]
    omega
  · simp only [isPointerWithinMemoryContext, Bool.and_eq_false_iff, decide_eq_false_iff_not]
    omega

/-- The copy of a group of 100 bytes hands out 10 of the 70 that are left, and the last of their addresses is known. -/
theorem region_of_copy_known :
    ((InUse.new 4096 100).run [.allocate 30 0, .copy, .allocate 10 3]).isPointerWithinMemoryContext 4105 = true :=
  have hcalls : (InUse.new 4096 100).Halves [.allocate 30 0, .copy, .allocate 10 3] :=
    ⟨.inl (by decide), trivial, .inl (by decide), trivial⟩
  ((regions_known_of_halves _ _ _ hcalls).2.1 ⟨4096, 10, 8⟩ mem_cons_self).2.2.2 4105 (by decide) (by decide)

/-- More than half of the pool is handed out, and an address of the region is not known. -/
theorem region_not_known : ((InUse.new 4096 100).run [.allocate 60 0]).regions = [⟨4096, 60, 1⟩] ∧
    ((InUse.new 4096 100).run [.allocate 60 0]).isPointerWithinMemoryContext 4146 = false :=
  ⟨rfl, by decide⟩

/-- In any run, regions are aligned, in the pool and apart, and the test knows no address outside of the pool. -/
theorem regions_apart (base size : Nat) (calls : List Call) :
    let u := (InUse.new base size).run calls
    u.pool ≤ size ∧ (∀ r ∈ u.regions, r.alignment ∣ r.start ∧ base ≤ r.start ∧ r.start + r.bytes ≤ base + u.pool) ∧
      u.regions.Pairwise (fun r r' => r'.start + r'.bytes ≤ r.start) ∧
      ∀ p, u.isPointerWithinMemoryContext p = true → base ≤ p ∧ p < base + u.pool := by
  intro u
  obtain ⟨hbase, hpool, hcursor, hleft, hregions, hapart⟩ : Bumped base size u := (Bumped.new base size).run calls
  refine ⟨hpool, fun r hr => ?_, hapart, fun p hp => ?_⟩
  · obtain ⟨hdvd, hge, hend⟩ := hregions r hr
    exact ⟨hdvd, hge, by omega⟩
  · simp only [isPointerWithinMemoryContext, Bool.and_eq_true, decide_eq_true_iff] at hp
    omega

end SchedGroup

end OneCcl
