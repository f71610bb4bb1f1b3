import OneCcl.Sched.CacheKey
import Mathlib.Logic.Relation
import Mathlib.Tactic.Tauto

/-!
# The fusion manager

`ccl_fusion_manager` takes small `allreduce` schedules of the user into `postponed_queue`. Every call of `execute` moves
schedules of one kind to `exec_queue`, until there are enough of them or one of them is urgent; the batch then goes to
`build_sched`.

A batch has schedules of one kind, no schedule twice, and not more of them than the thresholds allow (`Batch`). Every batch
of every run is of that form (`batch_of_execute`), and with `fusion_check_urgent` every such list is the batch of a run
(`execute_of_batch`).
-/

namespace OneCcl

open List SchedKey

/-- What two keys are compared by: `ccl_cache_key_type`. -/
inductive CacheKeyType where
  | full
  | matchId
  deriving DecidableEq, Repr

/-- `ccl_sched_key::operator==`. -/
def SchedKey.same (type : CacheKeyType) (key key' : SchedKey) : Bool :=
  let areFieldsEqual :=
    match type with
    | .full => { key with matchId := [] } == { key' with matchId := [] }
    | .matchId => true
  areFieldsEqual && key.matchId == key'.matchId

namespace SchedKey

variable {key key' : SchedKey}

@[simp] theorem same_full : same .full key key' = true ↔ key = key' := by
  obtain ⟨ctype⟩ := key
  obtain ⟨ctype'⟩ := key'
  simp only [same, Bool.and_eq_true, beq_iff_eq, mk.injEq]
  tauto

@[simp] theorem same_matchId : same .matchId key key' = true ↔ key.matchId = key'.matchId := by
  simp only [same, Bool.true_and, beq_iff_eq]

end SchedKey

/-- A schedule of the user, as far as the fusion manager reads it. A call without match id is not cached. -/
structure UserSched (proc : Process) where
  call : CollCall proc
  stream : Nat
  deps : Nat := 0
  synchronous : Bool := false
  toCache : Bool
  matchId_ne : toCache = true → call.attr.matchId ≠ []

open UserSched

namespace UserSched

variable {proc : Process} (s t : UserSched proc)

def count : Nat := s.call.param.getSendCount

def matchId : List Char := s.call.attr.matchId

/-- The bytes that the schedule takes in the fusion buffer. -/
def bytes : Nat := s.count * proc.dtypeSize s.call.param.dtype

/-- Datatype, communicator, collective and reduction. -/
def coll : Nat × Nat × CollType × Nat :=
  (s.call.param.dtype, s.call.param.comm, s.call.param.ctype, s.call.param.reduction)

/-- What is compared for a place in the batch. -/
def kind : (Nat × Nat × CollType × Nat) × Nat := (s.coll, s.stream)

def key : SchedKey := set s.call.param s.call.attr

/-- Cached calls with one key are one schedule. -/
def SameSched (s : UserSched proc) (type : CacheKeyType) (t : UserSched proc) : Prop :=
  s.toCache = true ∧ t.toCache = true ∧ s.key.same type t.key = true

variable {s t} in
theorem SameSched.symm {type : CacheKeyType} (h : s.SameSched type t) : t.SameSched type s := by
  obtain ⟨hs, ht, hkey⟩ := h
  refine ⟨ht, hs, ?_⟩
  cases type with
  | full => exact same_full.mpr (same_full.mp hkey).symm
  | matchId => exact same_matchId.mpr (same_matchId.mp hkey).symm

end UserSched

/-- `ccl_fusion_manager` with the settings it reads. The fusion buffer is memory that can be had, and predefined datatypes
have a size. -/
structure FusionManager (proc : Process) where
  enableHmem : Bool := false
  checkUrgent : Bool := true
  bytesThreshold : Nat
  countThreshold : Nat
  bytesThreshold_pos : 1 ≤ bytesThreshold
  countThreshold_pos : 1 ≤ countThreshold
  bufferSize_lt : bytesThreshold * countThreshold < 2 ^ 64
  dtypeSize_pos : ∀ dtype, proc.isPredefined dtype = true → 0 < proc.dtypeSize dtype

structure FusionQueues (proc : Process) where
  postponedQueue : List (UserSched proc) := []
  execQueue : List (UserSched proc) := []
  execQueueSumBytes : Nat := 0

def FusionQueues.push {proc : Process} (q : FusionQueues proc) (s : UserSched proc) : FusionQueues proc :=
  { q with execQueue := q.execQueue ++ [s], execQueueSumBytes := q.execQueueSumBytes + s.bytes }

namespace FusionManager

variable {proc : Process} (m : FusionManager proc)

def bufferSize : Nat := m.bytesThreshold * m.countThreshold

def canFuse (s : UserSched proc) : Bool :=
  !m.enableHmem && s.call.param.ctype == .allreduce && decide (s.bytes < m.bytesThreshold) && s.deps == 0 &&
    !(s.call.attr.reductionFn != 0 || s.synchronous)

/-- The queues after `ccl_fusion_manager::add`, and whether the schedule was taken. -/
def add (s : UserSched proc) (q : FusionQueues proc) : FusionQueues proc × Bool :=
  if m.canFuse s then ({ q with postponedQueue := q.postponedQueue ++ [s] }, true) else (q, false)

/-- The loop of `execute` over the postponed schedules. Those it passes over are kept in `q.postponedQueue`. -/
def executeLoop (urgent : UserSched proc → Bool) (first : UserSched proc) :
    List (UserSched proc) → FusionQueues proc → Bool → FusionQueues proc × Bool
  | [], q, flush => (q, flush)
  | s :: rest, q, flush =>
    if s.kind = first.kind then
      if m.bufferSize < q.execQueueSumBytes + s.bytes then
        ({ q with postponedQueue := q.postponedQueue ++ s :: rest }, true)
      else
        if (q.push s).execQueue.length = m.countThreshold then
          ({ q.push s with postponedQueue := q.postponedQueue ++ rest }, true)
        else executeLoop urgent first rest (q.push s) (flush || m.checkUrgent && urgent s)
    else executeLoop urgent first rest { q with postponedQueue := q.postponedQueue ++ [s] } flush

/-- The part of `execute` before the flush. -/
def executeFill (urgent : UserSched proc → Bool) (q : FusionQueues proc) : FusionQueues proc × Bool :=
  let flush := m.checkUrgent && q.execQueue.any urgent
  match q.postponedQueue, q.execQueue with
  | [], _ => (q, flush)
  | rest, first :: _ => m.executeLoop urgent first rest { q with postponedQueue := [] } flush
  | first :: rest, [] =>
    m.executeLoop urgent first rest { postponedQueue := [], execQueue := [first], execQueueSumBytes := first.bytes } flush

/-- `ccl_fusion_manager::execute`, when the cycle is over: the queues, and the batch that goes to `build_sched`. -/
def execute (urgent : UserSched proc → Bool) (q : FusionQueues proc) :
    FusionQueues proc × Option (List (UserSched proc)) :=
  let filled := m.executeFill urgent q
  if filled.2 then ({ filled.1 with execQueue := [], execQueueSumBytes := 0 }, some filled.1.execQueue) else (filled.1, none)

/-- A list of schedules within the limits of the manager. A `count_threshold` of one is passed over by the second schedule
and limits nothing. -/
structure Batch (type : CacheKeyType) (l : List (UserSched proc)) : Prop where
  ne : l ≠ []
  canFuse : ∀ s ∈ l, m.canFuse s = true
  kind : ∀ s ∈ l, ∀ t ∈ l, s.kind = t.kind
  distinct : l.Pairwise fun s t => ¬s.SameSched type t
  length_le : m.countThreshold ≠ 1 → l.length ≤ m.countThreshold
  bytes_le : (l.map bytes).sum ≤ m.bufferSize

/-- Steps of the manager. The user does not start a schedule again while it waits: `add` throws for it. -/
inductive Step (type : CacheKeyType) : FusionQueues proc → FusionQueues proc → Prop
  | add {s : UserSched proc} {q : FusionQueues proc}
    (hs : ∀ t ∈ q.execQueue ++ q.postponedQueue, ¬t.SameSched type s) : Step type q (m.add s q).1
  | execute (urgent : UserSched proc → Bool) (q : FusionQueues proc) : Step type q (m.execute urgent q).1

def Reach (type : CacheKeyType) : FusionQueues proc → Prop := Relation.ReflTransGen (m.Step type) {}

/-! ## The batches of runs are within the limits -/

/-- The queues during `execute`, with `rest` of the postponed schedules still to come. -/
structure Within (type : CacheKeyType) (q : FusionQueues proc) (rest : List (UserSched proc)) : Prop where
  canFuse : ∀ s ∈ q.execQueue ++ (q.postponedQueue ++ rest), m.canFuse s = true
  kind : ∀ s ∈ q.execQueue, ∀ t ∈ q.execQueue, s.kind = t.kind
  distinct : (q.execQueue ++ (q.postponedQueue ++ rest)).Pairwise fun s t => ¬s.SameSched type t
  sumBytes : q.execQueueSumBytes = (q.execQueue.map bytes).sum
  length_le : m.countThreshold ≠ 1 → q.execQueue.length ≤ m.countThreshold
  bytes_le : q.execQueueSumBytes ≤ m.bufferSize

def Room (q : FusionQueues proc) : Prop := m.countThreshold ≠ 1 → q.execQueue.length < m.countThreshold

variable {m} {type : CacheKeyType} {q : FusionQueues proc} {s : UserSched proc} {l rest : List (UserSched proc)}

theorem Within.perm (h : m.Within type q rest) (q' : FusionQueues proc) (rest' : List (UserSched proc))
    (hperm : (q.execQueue ++ (q.postponedQueue ++ rest)).Perm (q'.execQueue ++ (q'.postponedQueue ++ rest'))) :
    (∀ s ∈ q'.execQueue ++ (q'.postponedQueue ++ rest'), m.canFuse s = true) ∧
      (q'.execQueue ++ (q'.postponedQueue ++ rest')).Pairwise fun s t => ¬s.SameSched type t := by
  refine ⟨fun s hs => h.canFuse s (hperm.mem_iff.mpr hs), ?_⟩
  refine (hperm.pairwise_iff ?_).mp h.distinct
  intro s t hne hts
  exact hne hts.symm

theorem Within.batch (h : m.Within type q rest) (hne : q.execQueue ≠ []) : m.Batch type q.execQueue where
  ne := hne
  canFuse := fun s hs => h.canFuse s (mem_append_left _ hs)
  kind := h.kind
  distinct := (pairwise_append.mp h.distinct).1
  length_le := h.length_le
  bytes_le := h.sumBytes ▸ h.bytes_le

theorem Within.skip (h : m.Within type q (s :: rest)) :
    m.Within type { q with postponedQueue := q.postponedQueue ++ [s] } rest := by
  obtain ⟨hfuse, hdistinct⟩ := h.perm { q with postponedQueue := q.postponedQueue ++ [s] } rest (by simp)
  exact ⟨hfuse, h.kind, hdistinct, h.sumBytes, h.length_le, h.bytes_le⟩

theorem Within.push (h : m.Within type q (s :: rest)) (hroom : m.Room q) (hkind : ∀ t ∈ q.execQueue, t.kind = s.kind)
    (hbytes : q.execQueueSumBytes + s.bytes ≤ m.bufferSize) : m.Within type (q.push s) rest := by
  have hperm : (q.execQueue ++ (q.postponedQueue ++ s :: rest)).Perm (q.execQueue ++ [s] ++ (q.postponedQueue ++ rest)) := by
    rw [append_assoc]
    exact perm_middle.append_left _
  obtain ⟨hfuse, hdistinct⟩ := h.perm (q.push s) rest hperm
  refine ⟨hfuse, ?_, hdistinct, ?_, ?_, hbytes⟩
  · have hall : ∀ t ∈ q.execQueue ++ [s], t.kind = s.kind := by
      intro t ht
      rcases mem_append.mp ht with ht | ht
      · exact hkind t ht
      · rw [mem_singleton.mp ht]
    intro a ha b hb
    exact (hall a ha).trans (hall b hb).symm
  · simp [FusionQueues.push, h.sumBytes]
  · intro hne
    show (q.execQueue ++ [s]).length ≤ m.countThreshold
    rw [length_append]
    exact hroom hne

theorem Within.stop (h : m.Within type q rest) : m.Within type { q with postponedQueue := q.postponedQueue ++ rest } [] :=
  ⟨by simpa using h.canFuse, h.kind, by simpa using h.distinct, h.sumBytes, h.length_le, h.bytes_le⟩

theorem within_executeLoop (urgent : UserSched proc → Bool) (first : UserSched proc) (flush : Bool)
    (h : m.Within type q rest) (hroom : m.Room q) (hne : q.execQueue ≠ []) (hkind : ∀ t ∈ q.execQueue, t.kind = first.kind) :
    m.Within type (m.executeLoop urgent first rest q flush).1 [] ∧
      (m.executeLoop urgent first rest q flush).1.execQueue ≠ [] ∧
      ((m.executeLoop urgent first rest q flush).2 = false → m.Room (m.executeLoop urgent first rest q flush).1) := by
  induction rest generalizing q flush with
  | nil => exact ⟨h, hne, fun _ => hroom⟩
  | cons s rest ih =>
    rw [executeLoop]
    split
    · next hs =>
      split
      · exact ⟨h.stop, hne, nofun⟩
      · next hbytes =>
        have hkind' : ∀ t ∈ q.execQueue, t.kind = s.kind := fun t ht => (hkind t ht).trans hs.symm
        have hpush := h.push hroom hkind' (le_of_not_gt hbytes)
        have hne' : q.execQueue ++ [s] ≠ [] := by simp
        split
        · exact ⟨hpush.stop, hne', nofun⟩
        · next hcount =>
          refine ih _ hpush (fun hct => ?_) hne' ?_
          · exact Nat.lt_of_le_of_ne (hpush.length_le hct) hcount
          · intro t ht
            rcases mem_append.mp ht with ht | ht
            · exact hkind t ht
            · rw [mem_singleton.mp ht]
              exact hs
    · exact ih flush h.skip hroom hne hkind

theorem bytes_lt (h : m.canFuse s = true) : s.bytes < m.bytesThreshold := by
  simp only [canFuse, Bool.and_eq_true, decide_eq_true_eq] at h
  exact h.1.1.2

theorem bytes_le_bufferSize (h : m.canFuse s = true) : s.bytes ≤ m.bufferSize :=
  (Nat.le_of_lt (bytes_lt h)).trans (Nat.le_mul_of_pos_right _ m.countThreshold_pos)

theorem Within.first (h : m.Within type q []) (hexec : q.execQueue = []) (hpost : q.postponedQueue = s :: rest) :
    m.Within type { postponedQueue := [], execQueue := [s], execQueueSumBytes := s.bytes } rest ∧
      m.Room { postponedQueue := [], execQueue := [s], execQueueSumBytes := s.bytes } := by
  have hfuse := h.canFuse
  have hdistinct := h.distinct
  rw [hexec, hpost, append_nil, nil_append] at hfuse hdistinct
  have hroom : m.countThreshold ≠ 1 → 1 < m.countThreshold := by
    have := m.countThreshold_pos
    omega
  refine ⟨⟨hfuse, ?_, hdistinct, ?_, ?_, bytes_le_bufferSize (hfuse s mem_cons_self)⟩, hroom⟩
  · intro a ha b hb
    rw [mem_singleton.mp ha, mem_singleton.mp hb]
  · simp
  · exact fun hct => (hroom hct).le

theorem within_executeFill (urgent : UserSched proc → Bool) (h : m.Within type q []) (hroom : m.Room q) :
    m.Within type (m.executeFill urgent q).1 [] ∧
      ((m.executeFill urgent q).2 = true → (m.executeFill urgent q).1.execQueue ≠ []) ∧
      ((m.executeFill urgent q).2 = false → m.Room (m.executeFill urgent q).1) := by
  unfold executeFill
  cases hpost : q.postponedQueue with
  | nil =>
    refine ⟨h, ?_, fun _ => hroom⟩
    intro hflush hexec
    have hexec : q.execQueue = [] := hexec
    simp [hexec] at hflush
  | cons s rest =>
    cases hexec : q.execQueue with
    | nil =>
      obtain ⟨hfirst, hroom'⟩ := h.first hexec hpost
      obtain ⟨hw, hne, hr⟩ := within_executeLoop urgent s (m.checkUrgent && [].any urgent) hfirst hroom'
        (cons_ne_nil _ _) fun t ht => by rw [mem_singleton.mp ht]
      exact ⟨hw, fun _ => hne, hr⟩
    | cons first exec =>
      have hopen : m.Within type { q with postponedQueue := [] } (s :: rest) := by
        refine ⟨?_, h.kind, ?_, h.sumBytes, h.length_le, h.bytes_le⟩
        · simpa [hpost] using h.canFuse
        · simpa [hpost] using h.distinct
      obtain ⟨hw, hne, hr⟩ := within_executeLoop urgent first (m.checkUrgent && (first :: exec).any urgent)
        hopen hroom (by rw [hexec]; exact cons_ne_nil _ _) fun t ht =>
          h.kind t ht first (hexec ▸ mem_cons_self)
      rw [hexec] at hw hne hr
      exact ⟨hw, fun _ => hne, hr⟩

/-- Adding and executing keep the limits of a batch. -/
theorem within_step {q' : FusionQueues proc} (hstep : m.Step type q q') (h : m.Within type q [] ∧ m.Room q) :
    m.Within type q' [] ∧ m.Room q' := by
  obtain ⟨hw, hroom⟩ := h
  cases hstep with
  | @add s _ hs =>
    unfold add
    split
    · next hfuse =>
      refine ⟨⟨?_, hw.kind, ?_, hw.sumBytes, hw.length_le, hw.bytes_le⟩, hroom⟩
      · intro t ht
        simp only [append_nil] at ht
        rw [← append_assoc] at ht
        rcases mem_append.mp ht with ht | ht
        · exact hw.canFuse t (by simpa using ht)
        · rw [mem_singleton.mp ht]
          exact hfuse
      · simp only [append_nil]
        rw [← append_assoc, pairwise_append]
        refine ⟨by simpa using hw.distinct, pairwise_singleton _ _, ?_⟩
        intro t ht u hu
        rw [mem_singleton.mp hu]
        exact hs t ht
    · exact ⟨hw, hroom⟩
  | execute urgent _ =>
    obtain ⟨hw', -, hroom'⟩ := within_executeFill urgent hw hroom
    unfold execute
    dsimp only
    split
    · next hflush =>
      refine ⟨⟨?_, ?_, ?_, rfl, fun _ => Nat.zero_le _, Nat.zero_le _⟩, fun _ => m.countThreshold_pos⟩
      · exact fun s hs => hw'.canFuse s (mem_append_right _ hs)
      · exact forall_mem_nil _
      · exact (pairwise_append.mp hw'.distinct).2.1
    · next hflush => exact ⟨hw', hroom' (Bool.eq_false_iff.mpr hflush)⟩

/-- So the limits hold in every state of a run. -/
theorem within_of_reach (h : m.Reach type q) : m.Within type q [] ∧ m.Room q := by
  induction h with
  | refl =>
    refine ⟨⟨?_, ?_, List.Pairwise.nil, rfl, fun _ => Nat.zero_le _, Nat.zero_le _⟩, fun _ => m.countThreshold_pos⟩
    · exact forall_mem_nil _
    · exact forall_mem_nil _
  | tail _ hstep ih => exact within_step hstep ih

/-- **What a run hands to `build_sched` is a batch.** -/
theorem batch_of_execute (h : m.Reach type q) (urgent : UserSched proc → Bool) (hl : (m.execute urgent q).2 = some l) :
    m.Batch type l := by
  obtain ⟨hw, hroom⟩ := within_of_reach h
  obtain ⟨hw', hne, -⟩ := within_executeFill urgent hw hroom
  unfold execute at hl
  dsimp only at hl
  split at hl
  · next hflush =>
    cases hl
    exact hw'.batch (hne hflush)
  · cases hl

/-! ## Every batch is one of a run -/

theorem executeLoop_all (urgent : UserSched proc → Bool) (first : UserSched proc) (post : List (UserSched proc))
    (hkind : ∀ t ∈ rest, t.kind = first.kind) (hexec : l ≠ [])
    (hlen : m.countThreshold ≠ 1 → (l ++ rest).length ≤ m.countThreshold)
    (hbytes : ((l ++ rest).map bytes).sum ≤ m.bufferSize) :
    m.executeLoop urgent first rest ⟨post, l, (l.map bytes).sum⟩ true =
      (⟨post, l ++ rest, ((l ++ rest).map bytes).sum⟩, true) := by
  induction rest generalizing l with
  | nil => rw [executeLoop, append_nil]
  | cons s rest ih =>
    have hsplit : l ++ s :: rest = l ++ [s] ++ rest := by simp
    rw [hsplit] at hlen hbytes ⊢
    have hfit : ¬m.bufferSize < (l.map bytes).sum + s.bytes := by
      simp only [map_append, sum_append, map_cons, map_nil, sum_cons, sum_nil] at hbytes
      omega
    have hpush : FusionQueues.push ⟨post, l, (l.map bytes).sum⟩ s =
        ⟨post, l ++ [s], ((l ++ [s]).map bytes).sum⟩ := by
      simp [FusionQueues.push]
    rw [executeLoop, if_pos (hkind s mem_cons_self), if_neg hfit, hpush]
    split
    · next hcount =>
      -- the threshold is met by the last schedule only
      have hpos := length_pos_iff.mpr hexec
      have hrest : rest = [] := by
        simp only [length_append, length_singleton] at hcount hlen
        exact eq_nil_of_length_eq_zero (by omega)
      rw [hrest, append_nil, append_nil]
    · exact ih (fun t ht => hkind t (mem_cons_of_mem _ ht)) (by simp) hlen hbytes

theorem reach_postponed (h : m.Reach type q) (hfuse : ∀ s ∈ l, m.canFuse s = true)
    (hdistinct : (q.execQueue ++ (q.postponedQueue ++ l)).Pairwise fun s t => ¬s.SameSched type t) :
    m.Reach type { q with postponedQueue := q.postponedQueue ++ l } := by
  induction l generalizing q with
  | nil => simpa using h
  | cons s rest ih =>
    have hs : ∀ t ∈ q.execQueue ++ q.postponedQueue, ¬t.SameSched type s := by
      rw [← append_assoc] at hdistinct
      exact fun t ht => (pairwise_append.mp hdistinct).2.2 t ht s mem_cons_self
    have hadd : (m.add s q).1 = { q with postponedQueue := q.postponedQueue ++ [s] } := by
      rw [add, if_pos (hfuse s mem_cons_self)]
    have hstep : m.Reach type { q with postponedQueue := q.postponedQueue ++ [s] } := hadd ▸ h.tail (.add hs)
    have hrest := ih hstep (fun t ht => hfuse t (mem_cons_of_mem _ ht)) (by simpa using hdistinct)
    simpa using hrest

/-- **Every batch goes to `build_sched` in some run.** -/
theorem execute_of_batch (hurgent : m.checkUrgent = true) (h : m.Batch type l) : ∃ q urgent,
    m.Reach type q ∧ (m.execute urgent q).2 = some l := by
  obtain ⟨s, rest, rfl⟩ := exists_cons_of_ne_nil h.ne
  have hfirst : m.Reach type ⟨[], [s], s.bytes⟩ := by
    have hpost : m.Reach type ⟨[s], [], 0⟩ :=
      reach_postponed .refl (by simpa using h.canFuse s mem_cons_self) (pairwise_singleton _ _)
    have hexec : (m.execute (fun _ => false) ⟨[s], [], 0⟩).1 = ⟨[], [s], s.bytes⟩ := by
      simp [execute, executeFill, executeLoop]
    exact hexec ▸ hpost.tail (.execute _ _)
  refine ⟨⟨rest, [s], s.bytes⟩, fun _ => true, ?_, ?_⟩
  · exact reach_postponed hfirst (fun t ht => h.canFuse t (mem_cons_of_mem _ ht)) (by simpa using h.distinct)
  · have hloop := executeLoop_all (l := [s]) (fun _ => true) s []
      (fun t ht => h.kind t (mem_cons_of_mem _ ht) s mem_cons_self) (cons_ne_nil _ _) h.length_le h.bytes_le
    have hfill : m.executeFill (fun _ => true) ⟨rest, [s], s.bytes⟩ =
        (⟨[], s :: rest, s.bytes + (rest.map bytes).sum⟩, true) := by
      cases rest with
      | nil => simp [executeFill, hurgent]
      | cons t rest => simpa [executeFill, hurgent] using hloop
    simp only [execute, hfill, if_true]

end FusionManager

end OneCcl
