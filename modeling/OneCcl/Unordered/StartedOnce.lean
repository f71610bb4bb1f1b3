import OneCcl.Unordered.Stages
import Mathlib.Algebra.Order.BigOperators.Group.Finset
import Mathlib.Data.Finset.Max
import Mathlib.Data.Fintype.BigOperators

/-!
# Postponed schedules are started once

Between the look of a worker at `postponed_scheds` and its entry into `unresolved_comms` the user's thread can postpone the
schedule and look into the still empty map. Then nobody starts the schedule (`unordered_lost_wakeup`). In runs without that
order every call is started once, with the communicator that all ranks use for its match id (`unordered_started_once`).
-/

namespace OneCcl

open List Function UnorderedRank

variable {μ : Type} [DecidableEq μ] {n : Nat} {calls : Fin (n + 1) → List μ} {commId : Nat → Nat}
  {s s' : Fin (n + 1) → UnorderedRank μ} {action : UnorderedAction n} {actions : List (UnorderedAction n)}
  {r r' : Fin (n + 1)} {m : μ} {k : Nat}

/-! ## Runs are finite -/

/-- Sections of the current call that are behind the user's thread. -/
def PostponePc.sections : PostponePc → Nat
  | .check => 0
  | .coordinate => 1
  | .look => 2
  | .addComm _ => 3
  | .run _ => 4

/-- Sections of a post action that are to come. -/
def PostActionPc.left : PostActionPc → Nat
  | .waits => 3
  | .missed => 1
  | .found => 2
  | .added => 1
  | .done => 0

/-- An upper bound on the sections that are to come on a rank, with as many coordinations. -/
def UnorderedRank.left (x : UnorderedRank μ) (calls : List μ) (coordinations : Nat) : Nat :=
  5 * (calls.length - x.op) - x.pc.sections + ∑ k ∈ Finset.range coordinations, (x.service k).left

variable {coordinator : Bool} {x x' : UnorderedRank μ} {order : List μ}

theorem UserStep.sections (h : UserStep coordinator x m x') : 5 * x.op + x.pc.sections < 5 * x'.op + x'.pc.sections := by
  have hle : x.pc.sections ≤ 4 := by
    cases x.pc <;> simp [PostponePc.sections]
  rcases h.op with ⟨hop, -⟩ | ⟨hop, hpc⟩
  · rw [hop]
    cases h with
    | runNow | postponeMore | coordinateLast | lookNone | run => exact absurd hop (Nat.succ_ne_self _)
    | postponeFirst hpc | coordinate hpc | lookFound hpc | addComm hpc =>
      simp [hpc, PostponePc.sections]
  · rw [hop, hpc]
    show _ < 5 * (x.op + 1) + 0
    omega

theorem UserStep.left_lt {calls : List μ} (h : UserStep coordinator x m x')
    (hm : calls[x.op]? = some m) (coordinations : Nat) : x'.left calls coordinations < x.left calls coordinations := by
  have hlt := (List.getElem?_eq_some_iff.mp hm).1
  have hsections := h.sections
  have hle : x.pc.sections ≤ 4 := by
    cases x.pc <;> simp [PostponePc.sections]
  have hop : x'.op ≤ x.op + 1 := by
    rcases h.op with ⟨hop, -⟩ | ⟨hop, -⟩ <;> omega
  unfold left
  rw [h.service]
  omega

theorem WorkerStep.left_lt {id : Nat} {calls : List μ} (h : WorkerStep x k m id x')
    {coordinations : Nat} (hk : k < coordinations) : x'.left calls coordinations < x.left calls coordinations := by
  obtain ⟨hop, hpc, -⟩ := h.user
  have hservice : (x'.service k).left < (x.service k).left := by
    cases h with
    | found hk | missed hk | reserve hk | addComm hk | runPostponed hk =>
      dsimp only
      rw [update_self, hk]
      decide
  unfold left
  rw [hop, hpc]
  refine Nat.add_lt_add_left (Finset.sum_lt_sum (fun k' _ => ?_) ⟨k, Finset.mem_range.mpr hk, hservice⟩) _
  by_cases heq : k' = k
  · rw [heq]
    exact hservice.le
  · rw [h.service heq]

theorem RankInv.coordinated_subset {calls : List μ} (h : RankInv commId order calls x) : x.coordinated ⊆ calls := by
  intro m hm
  obtain ⟨i, -, hi⟩ := (h.mem_coordinated m).mp hm
  exact mem_of_getElem? hi

theorem UnorderedInv.left_lt (h : UnorderedInv calls commId s) (hstep : unorderedStep calls commId s action = some s') :
    ∑ r, (s' r).left (calls r) (calls 0).length < ∑ r, (s r).left (calls r) (calls 0).length := by
  obtain ⟨r, x, rfl, hx⟩ := unorderedStep_cases hstep
  have hlt : x.left (calls r) (calls 0).length < (s r).left (calls r) (calls 0).length := by
    rcases hx with ⟨m, -, hm, hx⟩ | ⟨k, m, -, -, hm, hx⟩
    · exact hx.left_lt hm _
    · refine hx.left_lt (Nat.lt_of_lt_of_le (List.getElem?_eq_some_iff.mp hm).1 ?_)
      exact ((h 0).nodup.subperm (h 0).coordinated_subset).length_le
  refine Finset.sum_lt_sum (fun r' _ => ?_) ⟨r, Finset.mem_univ r, by rwa [update_self]⟩
  by_cases hr : r' = r
  · rw [hr, update_self]
    exact hlt.le
  · rw [update_of_ne hr]

/-- A run has no more steps than there were left at its start. -/
theorem length_of_run (h : UnorderedRun calls commId (NoLateLook calls) actions s) :
    actions.length + ∑ r, (s r).left (calls r) (calls 0).length ≤ ∑ r, (5 * (calls r).length + 3 * (calls 0).length) := by
  induction h with
  | nil =>
    rw [length_nil, Nat.zero_add]
    refine Finset.sum_le_sum fun r _ => ?_
    simp [left, PostponePc.sections, PostActionPc.left, Nat.mul_comm]
  | snoc hrun hok hstep ih =>
    have hlt := (unorderedInv_of_run hrun).left_lt hstep
    rw [length_append, length_singleton]
    omega

/-! ## What was started -/

section

variable {calls : List μ} {x : UnorderedRank μ} {id i : Nat} {stage : PostActionPc}

def UnorderedRank.starts (x : UnorderedRank μ) (i : Nat) : Nat := x.started.countP fun p => p.1 = i

theorem starts_eq (hi : calls[i]? = some m) : x.starts i = (x.startedOf calls m).countP fun p => p.1 = i := by
  rw [startedOf, countP_filter]
  refine countP_congr fun p _ => ?_
  simp only [decide_eq_true_eq, Bool.and_eq_true]
  constructor
  · intro h
    exact ⟨h, h ▸ hi⟩
  · exact And.left

theorem countP_posted :
    ((x.posted calls m).map fun op => (op, id)).countP (fun p => p.1 = i) = (x.posted calls m).count i := by
  rw [countP_map, count]
  refine countP_congr fun op _ => ?_
  simp

theorem MatchInv.starts_le (h : MatchInv calls x m id stage) (hi : calls[i]? = some m) : x.starts i ≤ 1 := by
  have hposted : (x.posted calls m).count i ≤ 1 := nodup_iff_count_le_one.mp nodup_callsOf i
  rw [starts_eq hi]
  cases h with
  | early _ _ _ hs | missed _ _ hs | reserved _ _ hs | resolving _ _ hs | running _ _ hs =>
    rw [hs]
    exact Nat.zero_le _
  | added _ _ hs =>
    have hcount := hs.countP_eq fun p => p.1 = i
    rw [countP_append, countP_posted] at hcount
    omega
  | settled _ _ hs =>
    rw [hs.countP_eq, countP_posted]
    exact hposted

theorem MatchInv.comm_of_started (h : MatchInv calls x m id stage) {p : Nat × Nat} (hp : p ∈ x.started)
    (hm : calls[p.1]? = some m) : x.matchIdToComm m = some id ∧ p.2 = id := by
  have hmem : p ∈ x.startedOf calls m := mem_filter.mpr ⟨hp, decide_eq_true hm⟩
  have hid : ∀ {l : List Nat}, p ∈ l.map (fun op => (op, id)) → p.2 = id := by
    intro l hl
    obtain ⟨op, -, rfl⟩ := mem_map.mp hl
    rfl
  cases h with
  | early _ _ _ hs | missed _ _ hs | reserved _ _ hs | resolving _ _ hs | running _ _ hs =>
    rw [hs] at hmem
    cases hmem
  | added hc _ hs => exact ⟨hc, hid (hs.subset (mem_append_left _ hmem))⟩
  | settled hc _ hs => exact ⟨hc, hid (hs.subset hmem)⟩

theorem MatchInv.starts_eq_one (h : MatchInv calls x m id .done) (hop : x.op = calls.length) (hpc : x.pc = .check)
    (hi : calls[i]? = some m) : x.starts i = 1 := by
  have hlt := (List.getElem?_eq_some_iff.mp hi).1
  cases h with
  | early hstage => exact absurd hstage (by decide)
  | reserved _ _ _ _ _ hn => exact absurd hi (hn i (hop ▸ hlt))
  | resolving _ _ _ _ hadd | running _ _ _ _ hadd => cases hpc.symm.trans hadd
  | settled _ _ hs =>
    have hmem : i ∈ x.posted calls m := by
      rw [posted_check hpc, mem_callsOf]
      exact ⟨hop ▸ hlt, hi⟩
    rw [starts_eq hi, hs.countP_eq, countP_posted]
    exact count_eq_one_of_mem nodup_callsOf hmem

end

/-! ## Runs that cannot go on -/

/-- No section without a late look can be taken. -/
def Stopped (calls : Fin (n + 1) → List μ) (commId : Nat → Nat) (s : Fin (n + 1) → UnorderedRank μ) : Prop :=
  ∀ action, NoLateLook calls s action → unorderedStep calls commId s action = none

theorem user_none (h : unorderedStep calls commId s (.user r) = none) (hm : (calls r)[(s r).op]? = some m) :
    (s r).postpone (r == 0) (arrived s r) m = none := by
  cases hx : (s r).postpone (r == 0) (arrived s r) m with
  | none => rfl
  | some x =>
    rw [unorderedStep, hm] at h
    simp only [Option.bind_eq_bind, Option.bind_some, hx, Option.pure_def] at h
    cases h

theorem worker_none (h : unorderedStep calls commId s (.worker r k) = none) (hown : k < (s r).coordinated.length)
    (hm : (s 0).coordinated[k]? = some m) : (s r).postAction (r == 0) k m (commId k) = none := by
  cases hx : (s r).postAction (r == 0) k m (commId k) with
  | none => rfl
  | some x =>
    rw [unorderedStep, if_pos hown, hm] at h
    simp only [Option.bind_eq_bind, Option.bind_some, hx, Option.pure_def] at h
    cases h

theorem Stopped.user (h : Stopped calls commId s) (hinv : UnorderedInv calls commId s) (r : Fin (n + 1)) :
    (s r).op = (calls r).length ∧ (s r).pc = .check ∨ (s r).pc = .coordinate ∧ arrived s r = false := by
  rcases Nat.lt_or_eq_of_le (hinv r).op_le with hlt | hop
  · have hm : (calls r)[(s r).op]? = some (calls r)[(s r).op] := getElem?_eq_getElem hlt
    have hnone : NoLateLook calls s (.user r) → (s r).postpone (r == 0) (arrived s r) (calls r)[(s r).op] = none :=
      fun hok => user_none (h _ hok) hm
    unfold postpone at hnone
    match hpc : (s r).pc with
    | .check =>
      rw [hpc] at hnone
      have hnone := hnone fun hlook => absurd (hpc.symm.trans hlook) nofun
      simp only at hnone
      split at hnone
      · cases hnone
      · split at hnone <;> cases hnone
    | .coordinate =>
      rw [hpc] at hnone
      have hnone := hnone fun hlook => absurd (hpc.symm.trans hlook) nofun
      refine .inr ⟨rfl, ?_⟩
      by_contra harrived
      rw [Bool.not_eq_false] at harrived
      simp only [harrived, if_true] at hnone
      split at hnone <;> cases hnone
    | .look =>
      -- the worker that is on its way could enter the communicator id
      have hok : NoLateLook calls s (.user r) := by
        intro _ k m' hm' hk hmissed
        have hown := (hinv r).service_own k (hmissed ▸ nofun)
        have hworker := worker_none (h (.worker r k) trivial) hown hk
        rw [postAction, hmissed] at hworker
        cases hworker
      have hnone := hnone hok
      rw [hpc] at hnone
      simp only at hnone
      split at hnone <;> cases hnone
    | .addComm id =>
      rw [hpc] at hnone
      cases hnone fun hlook => absurd (hpc.symm.trans hlook) nofun
    | .run id =>
      rw [hpc] at hnone
      cases hnone fun hlook => absurd (hpc.symm.trans hlook) nofun
  · by_cases hpc : (s r).pc = .check
    · exact .inl ⟨hop, hpc⟩
    · exact absurd hop (((hinv r).call hpc).ne)

theorem RankInv.subset_coordinated {calls : List μ} (h : RankInv commId order calls x)
    (hop : x.op = calls.length) : calls ⊆ x.coordinated := by
  intro m hm
  obtain ⟨i, hi, rfl⟩ := getElem_of_mem hm
  exact (h.mem_coordinated _).mpr ⟨i, by omega, getElem?_eq_getElem hi⟩

section

variable (hsame : ∀ r r' m, m ∈ calls r → m ∈ calls r')

include hsame

theorem UnorderedInv.length_lt (h : UnorderedInv calls commId s) (hpc : (s r).pc = .coordinate)
    (hop : (s r').op = (calls r').length) : (s r).coordinated.length < (s r').coordinated.length := by
  have hlt := (h r).call (hpc ▸ nofun)
  have hm : (calls r)[(s r).op]? = some (calls r)[(s r).op] := getElem?_eq_getElem hlt
  have hnodup := (h r).nodup.concat ((h r).not_mem_coordinated hpc hm)
  rw [concat_eq_append] at hnodup
  have hsubset : (s r).coordinated ++ [(calls r)[(s r).op]] ⊆ (s r').coordinated := by
    intro m' hm'
    refine (h r').subset_coordinated hop (hsame r r' m' ?_)
    rcases mem_append.mp hm' with hm' | hm'
    · exact (h r).coordinated_subset hm'
    · rw [mem_singleton.mp hm']
      exact getElem_mem hlt
  have hlen := (hnodup.subperm hsubset).length_le
  rwa [length_append] at hlen

/-- When nothing goes on, all user's threads are through: of those in `create_comm_id`, the one that is farthest behind could
go on. -/
theorem Stopped.through (h : Stopped calls commId s) (hinv : UnorderedInv calls commId s) (r : Fin (n + 1)) :
    (s r).op = (calls r).length ∧ (s r).pc = .check := by
  refine (h.user hinv r).resolve_right fun hr => ?_
  obtain ⟨first, hfirst, hmin⟩ := Finset.exists_min_image (Finset.univ.filter fun r => (s r).pc = .coordinate)
    (fun r => (s r).coordinated.length) ⟨r, Finset.mem_filter.mpr ⟨Finset.mem_univ r, hr.1⟩⟩
  have hpc := (Finset.mem_filter.mp hfirst).2
  have harrived : arrived s first = true := by
    refine decide_eq_true fun r' => ?_
    rcases h.user hinv r' with ⟨hop, -⟩ | ⟨hpc', -⟩
    · exact .inl (hinv.length_lt hsame hpc hop)
    · have hle := hmin r' (Finset.mem_filter.mpr ⟨Finset.mem_univ r', hpc'⟩)
      exact (hle.lt_or_eq).imp_right fun heq => ⟨heq, hpc'⟩
  rcases h.user hinv first with ⟨-, hcheck⟩ | ⟨-, hnot⟩
  · cases hpc.symm.trans hcheck
  · cases harrived.symm.trans hnot

theorem Stopped.done (h : Stopped calls commId s) (hinv : UnorderedInv calls commId s) (hm : m ∈ calls r) :
    (s r).stageOf m (s 0).coordinated = .done := by
  have hmem : m ∈ (s 0).coordinated :=
    (hinv 0).subset_coordinated (h.through hsame hinv 0).1 (hsame r 0 m hm)
  have hk := getElem?_idxOf hmem
  have hown : (s 0).coordinated.idxOf m < (s r).coordinated.length := by
    refine Nat.lt_of_lt_of_le (idxOf_lt_length_iff.mpr hmem) ?_
    refine ((hinv 0).nodup.subperm fun m' hm' => ?_).length_le
    exact (hinv r).subset_coordinated (h.through hsame hinv r).1 (hsame 0 r m' ((hinv 0).coordinated_subset hm'))
  have hnone := worker_none (h (.worker r _) trivial) hown hk
  have hentry := (hinv r).entry m
  rw [stageOf, if_pos hmem] at hentry ⊢
  unfold postAction at hnone
  cases hservice : (s r).service ((s 0).coordinated.idxOf m) with
  | done => rfl
  | missed | found | added =>
    rw [hservice] at hnone
    cases hnone
  | waits =>
    -- the schedule is postponed, so the worker finds it
    rw [hservice] at hentry hnone
    simp only at hnone
    split at hnone
    · cases hnone
    · next hnil =>
      cases hentry with
      | early _ _ _ _ hp =>
        obtain ⟨hop, hpc⟩ := h.through hsame hinv r
        obtain ⟨i, hi, rfl⟩ := getElem_of_mem hm
        have hposted : i ∈ (s r).posted (calls r) (calls r)[i] := by
          rw [posted_check hpc, mem_callsOf]
          exact ⟨hop ▸ hi, getElem?_eq_getElem hi⟩
        exact absurd (hp ▸ ne_nil_of_mem hposted) hnil

/-- **Collectives in any order.** In every run without a late look, however the user's threads and the workers of the ranks
take turns: the run ends; no call is started twice; when a call is started, the communicator of its match id is there, and it
is the same on all ranks; and a run that cannot go on has started every call. -/
theorem unordered_started_once (hrun : UnorderedRun calls commId (NoLateLook calls) actions s) :
    actions.length ≤ ∑ r, (5 * (calls r).length + 3 * (calls 0).length) ∧
    (∀ r i, i < (calls r).length → (s r).starts i ≤ 1) ∧
    (∀ r p m, p ∈ (s r).started → (calls r)[p.1]? = some m → (s r).matchIdToComm m = some p.2) ∧
    (∀ r r' p p' m, p ∈ (s r).started → p' ∈ (s r').started → (calls r)[p.1]? = some m → (calls r')[p'.1]? = some m →
      p.2 = p'.2) ∧ (Stopped calls commId s → ∀ r i, i < (calls r).length → (s r).starts i = 1) := by
  have hinv := unorderedInv_of_run hrun
  refine ⟨(Nat.le_add_right _ _).trans (length_of_run hrun), ?_, ?_, ?_, ?_⟩
  · intro r i hi
    exact ((hinv r).entry _).starts_le (getElem?_eq_getElem hi)
  · intro r p m hp hm
    obtain ⟨hcomm, hid⟩ := ((hinv r).entry m).comm_of_started hp hm
    rw [hcomm, hid]
  · intro r r' p p' m hp hp' hm hm'
    rw [(((hinv r).entry m).comm_of_started hp hm).2, (((hinv r').entry m).comm_of_started hp' hm').2]
  · intro hstopped r i hi
    obtain ⟨hop, hpc⟩ := hstopped.through hsame hinv r
    have hentry := (hinv r).entry (calls r)[i]
    rw [hstopped.done hsame hinv (getElem_mem hi)] at hentry
    exact hentry.starts_eq_one hop hpc (getElem?_eq_getElem hi)

end

/-! ## Two ranks, two match ids -/

variable (calls commId) in
/-- A step that meets the condition. -/
def checkedStep (ok : (Fin (n + 1) → UnorderedRank μ) → UnorderedAction n → Prop) [∀ s action, Decidable (ok s action)]
    (s : Fin (n + 1) → UnorderedRank μ) (action : UnorderedAction n) : Option (Fin (n + 1) → UnorderedRank μ) :=
  if ok s action then unorderedStep calls commId s action else none

theorem unorderedRun_of_foldlM {ok : (Fin (n + 1) → UnorderedRank μ) → UnorderedAction n → Prop}
    [∀ s action, Decidable (ok s action)] (h : actions.foldlM (checkedStep calls commId ok) (fun _ => {}) = some s) :
    UnorderedRun calls commId ok actions s := by
  induction actions using reverseRecOn generalizing s with
  | nil =>
    cases h
    exact .nil
  | append_singleton actions action ih =>
    rw [foldlM_append] at h
    simp only [Option.bind_eq_bind, Option.bind_eq_some_iff, foldlM_cons, foldlM_nil, Option.pure_def,
      Option.some.injEq, exists_eq_right] at h
    obtain ⟨s', hs', hstep⟩ := h
    obtain ⟨hok, hstep⟩ := Option.ite_none_right_eq_some.mp hstep
    exact .snoc (ih hs') hok hstep

variable (calls commId actions) in
/-- A list of actions that a check goes through is a run. -/
theorem exists_run_of_check (ok : (Fin (n + 1) → UnorderedRank μ) → UnorderedAction n → Prop)
    [∀ s action, Decidable (ok s action)] {Q : (Fin (n + 1) → UnorderedRank μ) → Prop} [DecidablePred Q]
    (h : (actions.foldlM (checkedStep calls commId ok) fun _ => {}).map (fun s => decide (Q s)) = some true) :
    ∃ s, UnorderedRun calls commId ok actions s ∧ Q s := by
  obtain ⟨s, hs, hend⟩ := Option.map_eq_some_iff.mp h
  exact ⟨s, unorderedRun_of_foldlM hs, of_decide_eq_true hend⟩

theorem unorderedStep_eq_none (hop : ∀ r, (s r).op = (calls r).length)
    (hservice : ∀ r, ∀ k < (s r).coordinated.length, (s r).service k = .done) (action : UnorderedAction n) :
    unorderedStep calls commId s action = none := by
  cases action with
  | user r =>
    have hnone : (calls r)[(s r).op]? = none := by simp [hop r]
    rw [unorderedStep, hnone]
    rfl
  | worker r k =>
    rw [unorderedStep]
    split
    · next hk =>
      cases (s 0).coordinated[k]? with
      | none => rfl
      | some m =>
        rw [Option.bind_eq_bind, Option.bind_some, postAction, hservice r k hk]
        rfl
    · rfl

/-- Two ranks call two collectives in different orders. -/
def bothOrders : Fin 2 → List Bool := fun r => if r = 0 then [false, true] else [true, false]

/-- A worker of rank 1 misses the schedule of the first match id, and the user's thread finds the communicator later. -/
def bothOrdersRun : List (UnorderedAction 1) :=
  [.user 0, .user 1, .user 0, .user 1, .user 1, .worker 0 0, .worker 0 0, .worker 0 0, .worker 1 0, .worker 1 0, .user 1,
    .user 0, .user 0, .user 1, .user 1, .user 1, .user 1, .worker 0 1, .worker 0 1, .worker 0 1, .worker 1 1, .worker 1 1,
    .worker 1 1]

/-- All threads are through, and every call has started. -/
theorem bothOrders_started : ∃ s, UnorderedRun bothOrders id (NoLateLook bothOrders) bothOrdersRun s ∧
    Stopped bothOrders id s ∧ ∀ r i, i < (bothOrders r).length → (s r).starts i = 1 := by
  obtain ⟨s, hrun, hop, hservice⟩ := exists_run_of_check bothOrders id bothOrdersRun
    (NoLateLook bothOrders) (Q := fun s => (∀ r, (s r).op = (bothOrders r).length) ∧
      ∀ r, ∀ k < (s r).coordinated.length, (s r).service k = .done) (by decide +kernel)
  have hstopped : Stopped bothOrders id s := fun action _ => unorderedStep_eq_none hop hservice action
  exact ⟨s, hrun, hstopped, (unordered_started_once (by decide) hrun).2.2.2.2 hstopped⟩

/-- A worker of rank 1 misses the schedule of the first match id and leaves the communicator id only after the user's thread
has looked for it. -/
def lostWakeup : List (UnorderedAction 1) :=
  [.user 0, .user 1, .user 0, .user 1, .worker 1 0, .user 1, .user 1, .user 0, .user 0, .user 1, .user 1, .worker 1 0,
    .worker 0 0, .worker 0 0, .worker 0 0, .worker 0 1, .worker 0 1, .worker 0 1, .worker 1 1, .worker 1 1, .worker 1 1]

/-- **The lost wakeup.** All threads are through, and rank 1 has not started its second call. -/
theorem unordered_lost_wakeup : ∃ s, UnorderedRun bothOrders id (fun _ _ => True) lostWakeup s ∧
    (∀ action, unorderedStep bothOrders id s action = none) ∧ (s 1).starts 1 = 0 := by
  obtain ⟨s, hrun, hop, hservice, hstarts⟩ := exists_run_of_check bothOrders id lostWakeup
    (fun _ _ => True) (Q := fun s => (∀ r, (s r).op = (bothOrders r).length) ∧
      (∀ r, ∀ k < (s r).coordinated.length, (s r).service k = .done) ∧ (s 1).starts 1 = 0) (by decide +kernel)
  exact ⟨s, hrun, unorderedStep_eq_none hop hservice, hstarts⟩

end OneCcl
