import OneCcl.Fusion.Manager
import Mathlib.Logic.Function.Iterate

/-!
# The batches of a run

What `ccl_fusion_manager` makes of the schedules it has taken. Nothing is lost and nothing is fused twice, and schedules of
one kind stay in their order (`fusion_run_keeps`), as long as `count_threshold` is not one: a batch that begins with one
schedule is not compared with it before the second. Without urgent schedules the batches depend on the schedules alone, not
on when `execute` is called (`timings_agree`): a call that comes early only looks at the schedules that a later call would
look at first.
-/

namespace OneCcl

open List FusionQueues FusionManager

/-- All schedules that wait, those of the next batch first. -/
def FusionQueues.waiting {proc : Process} (q : FusionQueues proc) : List (UserSched proc) :=
  q.execQueue ++ q.postponedQueue

def FusionQueues.later {proc : Process} (q : FusionQueues proc) (more : List (UserSched proc)) : FusionQueues proc :=
  { q with postponedQueue := q.postponedQueue ++ more }

namespace FusionManager

variable {proc : Process}

/-! ## Order -/

/-- Runs of the manager from empty queues, with the schedules it has taken and the batches it has flushed. -/
inductive Run (m : FusionManager proc) (type : CacheKeyType) :
    List (UserSched proc) → List (List (UserSched proc)) → FusionQueues proc → Prop
  | start : Run m type [] [] {}
  | add {taken batches q} (s : UserSched proc) (h : Run m type taken batches q) (hs : ∀ t ∈ q.waiting, ¬t.SameSched type s) :
    Run m type (if (m.add s q).2 then taken ++ [s] else taken) batches (m.add s q).1
  | execute {taken batches q} (urgent : UserSched proc → Bool) (h : Run m type taken batches q) :
    Run m type taken (batches ++ (m.execute urgent q).2.toList) (m.execute urgent q).1

variable {m : FusionManager proc} {type : CacheKeyType} {q : FusionQueues proc} {s first : UserSched proc}
  {l rest more taken : List (UserSched proc)} {batches : List (List (UserSched proc))}

/-- A run with its history is a run. -/
theorem Run.reach (h : m.Run type taken batches q) : m.Reach type q := by
  induction h with
  | start => exact .refl
  | add s _ hs ih => exact ih.tail (.add hs)
  | execute urgent _ ih => exact ih.tail (.execute urgent _)

theorem executeLoop_waiting (urgent : UserSched proc → Bool) (flush : Bool) (k : (Nat × Nat × CollType × Nat) × Nat)
    (hskip : ∀ t ∈ q.postponedQueue, t.kind ≠ first.kind) :
    (m.executeLoop urgent first rest q flush).1.waiting.filter (·.kind = k) =
      (q.execQueue ++ (q.postponedQueue ++ rest)).filter (·.kind = k) := by
  induction rest generalizing q flush with
  | nil => simp [executeLoop, FusionQueues.waiting]
  | cons s rest ih =>
    rw [executeLoop]
    split
    · next hs =>
      have hmove : (q.execQueue ++ [s] ++ (q.postponedQueue ++ rest)).filter (·.kind = k) =
          (q.execQueue ++ (q.postponedQueue ++ s :: rest)).filter (·.kind = k) := by
        by_cases hk : s.kind = k
        · have hnone : q.postponedQueue.filter (·.kind = k) = [] := by
            simpa [filter_eq_nil_iff, ← hk, hs] using hskip
          simp [filter_append, hnone, hk]
        · simp [filter_append, hk]
      split
      · rfl
      · split
        · exact hmove
        · exact (ih (q := { q.push s with postponedQueue := q.postponedQueue }) _ hskip).trans hmove
    · next hs =>
      rw [ih _ fun t ht => ?_, append_assoc]
      · rfl
      · rcases mem_append.mp ht with ht | ht
        · exact hskip t ht
        · rwa [mem_singleton.mp ht]

theorem executeFill_waiting (urgent : UserSched proc → Bool) (k : (Nat × Nat × CollType × Nat) × Nat) :
    (m.executeFill urgent q).1.waiting.filter (·.kind = k) = q.waiting.filter (·.kind = k) := by
  unfold executeFill FusionQueues.waiting
  cases hpost : q.postponedQueue with
  | nil => simp [hpost]
  | cons first rest =>
    cases hexec : q.execQueue with
    | nil | cons first' exec => exact executeLoop_waiting urgent _ k (by simp)

theorem execute_waiting (urgent : UserSched proc → Bool) (k : (Nat × Nat × CollType × Nat) × Nat) :
    ((m.execute urgent q).2.toList.flatten ++ (m.execute urgent q).1.waiting).filter (·.kind = k) =
      q.waiting.filter (·.kind = k) := by
  rw [← executeFill_waiting (m := m) urgent k, execute]
  dsimp only
  split <;> simp [FusionQueues.waiting]

theorem Run.ofKind (h : m.Run type taken batches q) (k : (Nat × Nat × CollType × Nat) × Nat) :
    taken.filter (·.kind = k) = (batches.flatten ++ q.waiting).filter (·.kind = k) := by
  induction h with
  | start => rfl
  | @add _ _ q s _ _ ih =>
    cases hs : m.canFuse s with
    | true => simp [FusionManager.add, hs, FusionQueues.waiting, filter_append, ih]
    | false => simpa [FusionManager.add, hs] using ih
  | execute urgent _ ih =>
    rw [ih, flatten_append, append_assoc, filter_append, filter_append, execute_waiting]

theorem Run.batch (h : m.Run type taken batches q) : ∀ b ∈ batches, m.Batch type b := by
  induction h with
  | start => simp
  | add _ _ _ ih => exact ih
  | execute urgent h ih =>
    intro b hb
    rcases mem_append.mp hb with hb | hb
    · exact ih b hb
    · exact batch_of_execute h.reach urgent (Option.mem_toList.mp hb)

/-- **Runs of the fusion manager.** Nothing is lost or fused twice, schedules of one kind stay in their order, batches are of
one kind and within the limits, and the bytes of the next batch are counted right, if `count_threshold` is not one. -/
theorem fusion_run_keeps (hcount : m.countThreshold ≠ 1) (h : m.Run type taken batches q) :
    taken.Perm (batches.flatten ++ q.waiting) ∧
    (∀ k, taken.filter (·.kind = k) = (batches.flatten ++ q.waiting).filter (·.kind = k)) ∧
    (∀ b ∈ batches, (∀ s ∈ b, ∀ t ∈ b, s.kind = t.kind) ∧ b.length ≤ m.countThreshold ∧
      (b.map UserSched.bytes).sum ≤ m.bufferSize) ∧
    q.execQueueSumBytes = (q.execQueue.map UserSched.bytes).sum := by
  classical
  refine ⟨?_, h.ofKind, fun b hb => ?_, (within_of_reach h.reach).1.sumBytes⟩
  · refine perm_iff_count.mpr fun s => ?_
    have hs : ∀ l : List (UserSched proc), (l.filter (·.kind = s.kind)).count s = l.count s := fun l =>
      count_filter (by simp)
    rw [← hs, h.ofKind, hs]
  · have hbatch := h.batch b hb
    exact ⟨hbatch.kind, hbatch.length_le hcount, hbatch.bytes_le⟩

/-! ## Timings -/

def never : UserSched proc → Bool := fun _ => false

/-- A schedule is added, or `execute` is called with no schedule urgent: the queues and the batches so far. -/
def timingStep (m : FusionManager proc) (st : FusionQueues proc × List (List (UserSched proc))) :
    Option (UserSched proc) → FusionQueues proc × List (List (UserSched proc))
  | some s => ((m.add s st.1).1, st.2)
  | none => ((m.execute never st.1).1, st.2 ++ (m.execute never st.1).2.toList)

def timing (m : FusionManager proc) (es : List (Option (UserSched proc))) : List (List (UserSched proc)) :=
  (es.foldl m.timingStep ({}, [])).2

theorem executeLoop_append : m.executeLoop never first (rest ++ more) q false =
    if (m.executeLoop never first rest q false).2 then ((m.executeLoop never first rest q false).1.later more, true)
    else m.executeLoop never first more (m.executeLoop never first rest q false).1 false := by
  induction rest generalizing q with
  | nil => simp [executeLoop]
  | cons s rest ih =>
    rw [cons_append, executeLoop, executeLoop]
    split
    · split
      · simp [later]
      · split
        · simp [later]
        · simpa [never] using ih
    · exact ih

theorem executeLoop_skip (hl : ∀ t ∈ l, t.kind ≠ first.kind) : m.executeLoop never first (l ++ more) q false =
    m.executeLoop never first more (q.later l) false := by
  induction l generalizing q with
  | nil => simp [later]
  | cons s l ih =>
    rw [cons_append, executeLoop, if_neg (hl s mem_cons_self), ih fun t ht => hl t (mem_cons_of_mem _ ht)]
    simp [later]

theorem executeLoop_quiet (h : (m.executeLoop never first rest q false).2 = false)
    (hskip : ∀ t ∈ q.postponedQueue, t.kind ≠ first.kind) (hfirst : q.execQueue.head? = some first) :
    (∀ t ∈ (m.executeLoop never first rest q false).1.postponedQueue, t.kind ≠ first.kind) ∧
      (m.executeLoop never first rest q false).1.execQueue.head? = some first := by
  induction rest generalizing q with
  | nil => exact ⟨hskip, hfirst⟩
  | cons s rest ih =>
    rw [executeLoop] at h ⊢
    split at h
    · next hs =>
      rw [if_pos hs]
      split at h
      · cases h
      · next hfit =>
        rw [if_neg hfit]
        split at h
        · cases h
        · next hlen =>
          rw [if_neg hlen]
          simp only [never, Bool.and_false, Bool.or_false] at h ⊢
          exact ih h hskip (by simp [push, hfirst])
    · next hs =>
      rw [if_neg hs]
      refine ih h (fun t ht => ?_) hfirst
      rcases mem_append.mp ht with ht | ht
      · exact hskip t ht
      · rwa [mem_singleton.mp ht]

theorem any_never (l : List (UserSched proc)) : l.any never = false := by
  simp [never]

theorem executeFill_of_head (hfirst : q.execQueue.head? = some first) :
    m.executeFill never q = m.executeLoop never first q.postponedQueue { q with postponedQueue := [] } false := by
  obtain ⟨post, exec, bytes⟩ := q
  cases exec with
  | nil => cases hfirst
  | cons s exec =>
    cases hfirst
    cases post with
    | nil => simp [executeFill, executeLoop, never]
    | cons s' post => simp only [executeFill, any_never, Bool.and_false]

theorem executeLoop_flush (h : (m.executeLoop never first rest q false).2 = true) :
    m.executeLoop never first (rest ++ more) q false = ((m.executeLoop never first rest q false).1.later more, true) := by
  rw [executeLoop_append, h, if_pos rfl]

theorem executeLoop_later (hpost : q.postponedQueue = []) (hfirst : q.execQueue.head? = some first)
    (h : (m.executeLoop never first rest q false).2 = false) :
    m.executeFill never ((m.executeLoop never first rest q false).1.later more) =
      m.executeLoop never first (rest ++ more) q false := by
  obtain ⟨hskip, hhead⟩ := executeLoop_quiet h (by simp [hpost]) hfirst
  rw [executeFill_of_head (q := (m.executeLoop never first rest q false).1.later more) hhead, executeLoop_append, h,
    if_neg Bool.false_ne_true]
  exact executeLoop_skip hskip

variable (more) in
/-- **A call that comes early.** If it flushes, it would have flushed the same batch with more schedules there; if it does
not, a later call sees no difference. -/
theorem executeFill_later :
    ((m.executeFill never q).2 = true → m.executeFill never (q.later more) = ((m.executeFill never q).1.later more, true)) ∧
      ((m.executeFill never q).2 = false →
        m.executeFill never ((m.executeFill never q).1.later more) = m.executeFill never (q.later more)) := by
  cases hexec : q.execQueue with
  | cons first exec =>
    have hhead : q.execQueue.head? = some first := by rw [hexec, head?_cons]
    rw [executeFill_of_head hhead, executeFill_of_head (q := q.later more) hhead]
    exact ⟨executeLoop_flush, executeLoop_later rfl hhead⟩
  | nil =>
    cases hpost : q.postponedQueue with
    | nil => simp [executeFill, hpost, hexec]
    | cons first rest =>
      have hfill : ∀ l, m.executeFill never ⟨first :: l, [], q.execQueueSumBytes⟩ =
          m.executeLoop never first l ⟨[], [first], first.bytes⟩ false := fun l => by simp [executeFill]
      have hq : q = ⟨first :: rest, [], q.execQueueSumBytes⟩ := by rw [← hpost, ← hexec]
      rw [hq, later, cons_append, hfill, hfill]
      exact ⟨executeLoop_flush, executeLoop_later rfl rfl⟩

theorem add_later (hs : m.canFuse s = true) : (m.add s q).1.later more = q.later (s :: more) := by
  simp [add, hs, later]

theorem timing_iterate (es : List (Option (UserSched proc))) {a c : FusionQueues proc × List (List (UserSched proc))}
    (hout : c.2 = a.2)
    (hfill : m.executeFill never c.1 = m.executeFill never (a.1.later ((es.filterMap id).filter (m.canFuse ·)))) :
    ∃ n, ((m.timingStep · none)^[n] c).2 = (es.foldl m.timingStep a).2 := by
  induction es generalizing a c with
  | nil => exact ⟨0, hout⟩
  | cons e es ih =>
    rw [foldl_cons]
    cases e with
    | some s =>
      refine ih hout ?_
      cases hs : m.canFuse s with
      | true => simpa [timingStep, add_later hs, hs] using hfill
      | false => simpa [timingStep, add, hs] using hfill
    | none =>
      rw [filterMap_cons_none (by rfl)] at hfill
      obtain ⟨hflush, hquiet⟩ := executeFill_later (m := m) (q := a.1) ((es.filterMap id).filter (m.canFuse ·))
      cases hr : (m.executeFill never a.1).2 with
      | true =>
        rw [hflush hr] at hfill
        obtain ⟨n, hn⟩ := ih (a := m.timingStep a none) (c := m.timingStep c none)
          (by simp [timingStep, execute, hfill, hr, hout, later])
          (by simp [timingStep, execute, hfill, hr, later])
        exact ⟨n + 1, hn⟩
      | false =>
        refine ih (by simp [timingStep, execute, hr, hout]) ?_
        rw [hfill, ← hquiet hr]
        simp [timingStep, execute, hr]

theorem iterate_prefix_iterate (all : FusionQueues proc × List (List (UserSched proc))) {n n' : Nat} (h : n ≤ n') :
    ((m.timingStep · none)^[n] all).2 <+: ((m.timingStep · none)^[n'] all).2 := by
  induction h with
  | refl => exact prefix_refl _
  | step _ ih =>
    rw [Function.iterate_succ_apply']
    exact ih.trans (prefix_append ..)

/-- **Timings.** Of two timings with the same schedules and none of them urgent, one flushes what the other does, and
perhaps more batches after that. -/
theorem timings_agree {es es' : List (Option (UserSched proc))} (h : es.filterMap id = es'.filterMap id) :
    m.timing es <+: m.timing es' ∨ m.timing es' <+: m.timing es := by
  obtain ⟨n, hn⟩ := timing_iterate (m := m) es (a := ({}, []))
    (c := ({ postponedQueue := (es.filterMap id).filter (m.canFuse ·) }, [])) rfl rfl
  obtain ⟨n', hn'⟩ := timing_iterate (m := m) es' (a := ({}, []))
    (c := ({ postponedQueue := (es.filterMap id).filter (m.canFuse ·) }, [])) rfl (by rw [h]; rfl)
  rw [timing, timing, ← hn, ← hn']
  exact (Nat.le_total n n').imp (iterate_prefix_iterate _) (iterate_prefix_iterate _)

end FusionManager

/-! ## Small managers -/

/-- A manager for batches of 128 bytes a schedule. -/
def smallManager (countThreshold : Nat) (hpos : 1 ≤ countThreshold) (hlt : 128 * countThreshold < 2 ^ 64) :
    FusionManager twoRanks where
  bytesThreshold := 128
  countThreshold
  bytesThreshold_pos := Nat.le_add_left 1 127
  countThreshold_pos := hpos
  bufferSize_lt := hlt
  dtypeSize_pos := twoRanks_dtypeSize_pos

/-- An `allreduce` of 40 bytes that is not cached. -/
def plainAllreduce : UserSched twoRanks where
  call := allreduceInto 8192
  stream := 0
  toCache := false
  matchId_ne := fun h => absurd h Bool.false_ne_true

section

variable {c : Nat} {p : 1 ≤ c} {l : 128 * c < 2 ^ 64}

theorem canFuse_plainAllreduce : (smallManager c p l).canFuse plainAllreduce = true := rfl

theorem add_plainAllreduce (q : FusionQueues twoRanks) :
    (smallManager c p l).add plainAllreduce q = (q.later [plainAllreduce], true) := by
  rw [add, if_pos canFuse_plainAllreduce, later]

/-- Two schedules are added. -/
theorem run_pair : (smallManager c p l).Run .full [plainAllreduce, plainAllreduce] []
    ⟨[plainAllreduce, plainAllreduce], [], 0⟩ := by
  have hstart : (smallManager c p l).Run .full [] [] {} := .start
  have hone := hstart.add plainAllreduce (by simp [FusionQueues.waiting])
  have htwo := hone.add plainAllreduce fun t ht h => by
    simp only [add_plainAllreduce, FusionQueues.waiting, later, nil_append, mem_singleton] at ht
    rw [ht] at h
    cases h.1
  simpa [add_plainAllreduce, later] using htwo

theorem execute_pair {urgent : UserSched twoRanks → Bool} (h : c = 2 ∨ c = 1 ∧ urgent plainAllreduce = true) :
    (smallManager c p l).execute urgent ⟨[plainAllreduce, plainAllreduce], [], 0⟩ =
      ({}, some [plainAllreduce, plainAllreduce]) := by
  have hbytes : plainAllreduce.bytes = 40 := rfl
  rcases h with rfl | ⟨rfl, hurgent⟩
  · simp [execute, executeFill, executeLoop, bufferSize,
      push, smallManager, hbytes]
  · simp [execute, executeFill, executeLoop, bufferSize,
      push, smallManager, hbytes, hurgent]

end

/-- Two schedules in a batch of at most two. -/
theorem fusion_pair_kept : ∃ q, (smallManager 2 (by decide) (by decide)).Run .full [plainAllreduce, plainAllreduce]
    [[plainAllreduce, plainAllreduce]] q ∧ [plainAllreduce, plainAllreduce].Perm
      ([[plainAllreduce, plainAllreduce]].flatten ++ q.waiting) := by
  have hrun := (run_pair (c := 2) (p := by decide) (l := by decide)).execute never
  rw [execute_pair (.inl rfl)] at hrun
  exact ⟨_, hrun, (fusion_run_keeps (by decide) hrun).1⟩

/-- With a `count_threshold` of one, two schedules go into one batch when they are urgent. -/
theorem fusion_pair_over_one : ∃ q, (smallManager 1 (by decide) (by decide)).Run .full [plainAllreduce, plainAllreduce]
    [[plainAllreduce, plainAllreduce]] q ∧ ¬ [plainAllreduce, plainAllreduce].length ≤ 1 := by
  have hrun := (run_pair (c := 1) (p := by decide) (l := by decide)).execute fun _ => true
  rw [execute_pair (.inr ⟨rfl, rfl⟩)] at hrun
  exact ⟨_, hrun, by simp⟩

/-- An early call of `execute` flushes nothing, and the next one what a single call does. -/
theorem fusion_pair_timings :
    (smallManager 2 (by decide) (by decide)).timing [some plainAllreduce, none, some plainAllreduce] =
    [] ∧ ((smallManager 2 (by decide) (by decide)).timing [some plainAllreduce, none, some plainAllreduce] <+:
      (smallManager 2 (by decide) (by decide)).timing [some plainAllreduce, some plainAllreduce, none] ∨
    (smallManager 2 (by decide) (by decide)).timing [some plainAllreduce, some plainAllreduce, none] <+:
      (smallManager 2 (by decide) (by decide)).timing [some plainAllreduce, none, some plainAllreduce]) :=
  ⟨rfl, timings_agree rfl⟩

end OneCcl
