import Mathlib.Algebra.Order.Ring.Int
import Mathlib.Data.List.Induction
import Mathlib.Data.List.Perm.Basic

/-!
# Submission of the commands of chunks

`ccl_submit_ze_commands_in_subsched_entries` collects the sub-schedules of a schedule by their group and submits the entries
of one group after the other: those of a parallelizable group in turns, one entry of each sub-schedule in a turn, those of
another group one sub-schedule after the other. Either way each entry is submitted once, behind those before it in its
sub-schedule (`submit_each_once`).
-/

namespace OneCcl.SubschedSubmission

open List

variable {ε : Type}

/-- An entry of the schedule. Its sub-schedule, given by its group and its entries, is read if the name is that of a chunk. -/
structure SubschedEntry (ε : Type) where
  name : String
  groupId : Nat
  parallelizable : Bool
  entries : List ε

def reorderableAlgoPrefixes : List String := ["ALLREDUCE_PIPE", "ALLGATHERV_PIPE", "REDUCE_PIPE", "REDUCE_SCATTER_PIPE"]

def isReorderableAlgo (algoName : String) : Bool :=
  reorderableAlgoPrefixes.any fun p => p.toList.isPrefixOf algoName.toList

/-- A group, and for each of its sub-schedules the entries from the first iterator to the second. -/
structure GroupIterators (ε : Type) where
  groupId : Nat
  parallelizable : Bool
  iterators : List (List ε)

/-- A chunk enters both maps, which are ordered by group. The group that came last is the one that is kept. -/
def pushBack (e : SubschedEntry ε) : List (GroupIterators ε) → List (GroupIterators ε)
  | [] => [⟨e.groupId, e.parallelizable, [e.entries]⟩]
  | g :: m =>
    if g.groupId < e.groupId then g :: pushBack e m
    else if g.groupId = e.groupId then ⟨g.groupId, e.parallelizable, g.iterators ++ [e.entries]⟩ :: m
    else ⟨e.groupId, e.parallelizable, [e.entries]⟩ :: g :: m

/-- The inner loop: the entries that it submits, and those from the advanced iterator on. -/
def submitChunk (parallelizable : Bool) : List ε → List ε × List ε
  | [] => ([], [])
  | e :: rest =>
    if parallelizable then ([e], rest)
    else (e :: (submitChunk parallelizable rest).1, (submitChunk parallelizable rest).2)

/-- What a turn over the iterators of a group submits, -/
def turnSubmits (parallelizable : Bool) (its : List (List ε)) : List ε := its.flatMap fun l => (submitChunk parallelizable l).1

/-- and the iterators that are not removed behind it. -/
def turnKeeps (parallelizable : Bool) (its : List (List ε)) : List (List ε) :=
  (its.map fun l => (submitChunk parallelizable l).2).filter fun l => !l.isEmpty

section

variable (p : Bool) (l : List ε) (its : List (List ε))

theorem submitChunk_append : (submitChunk p l).1 ++ (submitChunk p l).2 = l := by
  induction l with
  | nil => rfl
  | cons e l ih => cases p <;> simp_all [submitChunk]

theorem length_submitChunk_le : (submitChunk p l).2.length ≤ l.length - 1 := by
  induction l with
  | nil => simp [submitChunk]
  | cons e l ih =>
    cases p
    · simp only [submitChunk, Bool.false_eq_true, if_false, length_cons]
      omega
    · simp [submitChunk]

/-- Bounds the turns that a group still takes: a turn submits an entry of each iterator or removes it. -/
def weight : Nat := (its.map fun l => l.length + 1).sum

theorem weight_turnKeeps_le : weight (turnKeeps p its) + its.length ≤ weight its := by
  induction its with
  | nil => exact Nat.le_refl _
  | cons l its ih =>
    have hlen := length_submitChunk_le p l
    unfold weight turnKeeps at ih ⊢
    rw [map_cons, filter_cons]
    cases h : (submitChunk p l).2 with
    | nil =>
      simp only [isEmpty_nil, Bool.not_true, Bool.false_eq_true, if_false, length_cons, map_cons, sum_cons]
      omega
    | cons e rest =>
      rw [h] at hlen
      simp only [isEmpty_cons, Bool.not_false, if_true, length_cons, map_cons, sum_cons] at hlen ⊢
      omega

end

/-- The loop over the turns of a group. -/
def submitGroup (parallelizable : Bool) (its : List (List ε)) : List ε :=
  if its.isEmpty then [] else turnSubmits parallelizable its ++ submitGroup parallelizable (turnKeeps parallelizable its)
termination_by weight its
decreasing_by
  next hne =>
    have hle := weight_turnKeeps_le parallelizable its
    have hpos : its.length ≠ 0 := fun h => hne (isEmpty_iff.mpr (length_eq_zero_iff.mp h))
    omega

/-- The first loop. -/
def collect (sched : List (SubschedEntry ε)) : List (GroupIterators ε) :=
  sched.foldl (fun m e => if isReorderableAlgo e.name then pushBack e m else m) []

/-- The entries in the order of their submission, and the number of commands. -/
def submitZeCommandsInSubschedEntries (zeCommandsSubmit : ε → UInt32) (sched : List (SubschedEntry ε)) : List ε × UInt32 :=
  let submitted := (collect sched).flatMap fun g => submitGroup g.parallelizable g.iterators
  (submitted, submitted.foldl (fun count e => count + zeCommandsSubmit e) 0)

variable {l : List ε} {its : List (List ε)}

/-- A turn submits the entries that are in front of what it keeps. -/
theorem turn_perm (p : Bool) (its : List (List ε)) : turnSubmits p its ++ (turnKeeps p its).flatten ~ its.flatten := by
  induction its with
  | nil => exact .refl _
  | cons l its ih =>
    have hkeeps : (turnKeeps p (l :: its)).flatten = (submitChunk p l).2 ++ (turnKeeps p its).flatten := by
      unfold turnKeeps
      rw [map_cons, filter_cons]
      split <;> simp_all
    have hsubmits : turnSubmits p (l :: its) = (submitChunk p l).1 ++ turnSubmits p its := flatMap_cons
    rw [hkeeps, hsubmits, flatten_cons, append_assoc]
    nth_rewrite 3 [← submitChunk_append p l]
    rw [append_assoc]
    refine Perm.append_left _ (Perm.trans ?_ (ih.append_left _))
    exact perm_append_comm_assoc _ _ _

theorem submitGroup_perm (p : Bool) (its : List (List ε)) : submitGroup p its ~ its.flatten := by
  fun_induction submitGroup p its with
  | case1 its hnil => rw [isEmpty_iff.mp hnil, flatten_nil]
  | case2 its hne ih => exact (ih.append_left _).trans (turn_perm p its)

theorem sublist_submitGroup (p : Bool) (h : l ∈ its) : l <+ submitGroup p its := by
  fun_induction submitGroup p its generalizing l with
  | case1 its hnil =>
    rw [isEmpty_iff.mp hnil] at h
    cases h
  | case2 its hne ih =>
    have hsubmits : (submitChunk p l).1 <+ turnSubmits p its := sublist_flatten_of_mem (mem_map_of_mem h)
    -- what the turn leaves of the sub-schedule is submitted by the later turns
    have hkeeps : (submitChunk p l).2 <+ submitGroup p (turnKeeps p its) := by
      by_cases hnil : (submitChunk p l).2 = []
      · rw [hnil]
        exact nil_sublist _
      · exact ih (mem_filter.mpr ⟨mem_map_of_mem h, by simpa using hnil⟩)
    rw [← submitChunk_append p l]
    exact hsubmits.append hkeeps

theorem pushBack_perm (e : SubschedEntry ε) (m : List (GroupIterators ε)) :
    (pushBack e m).flatMap (·.iterators) ~ m.flatMap (·.iterators) ++ [e.entries] := by
  induction m with
  | nil => exact .refl _
  | cons g m ih =>
    unfold pushBack
    split
    · rw [flatMap_cons, flatMap_cons, append_assoc]
      exact ih.append_left _
    · split
      · rw [flatMap_cons, flatMap_cons, append_assoc, append_assoc]
        exact perm_append_comm.append_left _
      · rw [flatMap_cons]
        exact perm_append_comm

theorem collect_perm (sched : List (SubschedEntry ε)) :
    (collect sched).flatMap (·.iterators) ~ (sched.filter fun e => isReorderableAlgo e.name).map (·.entries) := by
  unfold collect
  induction sched using reverseRecOn with
  | nil => exact .refl _
  | append_singleton sched e ih =>
    rw [foldl_append, foldl_cons, foldl_nil, filter_append, filter_cons, filter_nil, map_append]
    by_cases hname : isReorderableAlgo e.name
    · rw [if_pos hname, if_pos hname]
      exact (pushBack_perm e _).trans (ih.append_right _)
    · rw [if_neg hname, if_neg hname, map_nil, append_nil]
      exact ih

/-- What is submitted is the entries of the sub-schedules that are chunks, each once and those of a sub-schedule in their
order. -/
theorem submit_each_once (zeCommandsSubmit : ε → UInt32) (sched : List (SubschedEntry ε)) :
    (submitZeCommandsInSubschedEntries zeCommandsSubmit sched).1 ~
        (sched.filter fun e => isReorderableAlgo e.name).flatMap SubschedEntry.entries ∧
      ∀ e ∈ sched, isReorderableAlgo e.name = true →
        e.entries <+ (submitZeCommandsInSubschedEntries zeCommandsSubmit sched).1 := by
  have hperm := collect_perm sched
  constructor
  · refine Perm.trans (Perm.flatMap_left _ fun g _ => submitGroup_perm g.parallelizable g.iterators) ?_
    have hflat := hperm.flatten
    rwa [flatMap_def, flatten_flatten, map_map] at hflat
  · intro e he hname
    have hmem : e.entries ∈ (collect sched).flatMap (·.iterators) :=
      hperm.mem_iff.mpr (mem_map_of_mem (mem_filter.mpr ⟨he, hname⟩))
    obtain ⟨g, hg, hit⟩ := mem_flatMap.mp hmem
    exact (sublist_submitGroup g.parallelizable hit).trans (sublist_flatten_of_mem (mem_map_of_mem hg))

/-- The operations that are split into chunks. -/
def chunkedOps : List String := ["ALLREDUCE", "ALLGATHERV", "REDUCE", "REDUCE_SCATTER"]

/-- The names that are given to chunks are those of chunks. -/
theorem isReorderableAlgo_chunk {op : String} (hop : op ∈ chunkedOps) (chunkIdx : Nat) :
    isReorderableAlgo (op ++ "_PIPE" ++ toString chunkIdx) = true := by
  have hmem : op ++ "_PIPE" ∈ reorderableAlgoPrefixes := by
    revert op
    decide
  refine any_eq_true.mpr ⟨_, hmem, ?_⟩
  simp [String.toList_append]

end OneCcl.SubschedSubmission
