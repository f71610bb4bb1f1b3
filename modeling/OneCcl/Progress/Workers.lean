import OneCcl.Progress.Frame
import OneCcl.Sched.Sched

/-!
# Runs by `do_progress` are runs of the net

The contracts of the builders are about nets. A net says what the entries of all schedules may do; it leaves open who
starts them. In the library a worker does, by the calls of `do_progress`, and there is a schedule with its own credits, its
`start_idx` and the states of its entries.

Here the two levels meet. A step of the workers (`WorkStep`) is a step of `do_progress` for one schedule, or a step of the
transport. An entry that reaches the started state posts its operation, whether the net lets it or not; an entry is seen
to be complete only when its operation is done. `Follows` relates a schedule and the state of the net, every step keeps it
(`Follows.step`), and with it whatever a worker starts the net lets start: the runs of the workers are runs of the net
(`workers_reach`). So what a builder's contract says of the final state of the net holds when the workers are through
(`workers_complete`).
-/

namespace OneCcl

open Async List Function EntryStatus

variable {ω ι ρ χ κ M δ : Type}

/-! ## What a step does to the entries that have not started -/

namespace CclSched

variable {x x' : OpSched ω} {a : LoopAction} {k : Nat} {e : OpEntry ω}

theorem advance_reached : (x.advance k e).reached = x.reached := by
  unfold CclSched.advance
  repeat' split
  all_goals rfl

theorem advance_flowControl : (x.advance k e).flowControl = x.flowControl := by
  unfold CclSched.advance
  repeat' split
  all_goals rfl

/-- A step leaves the entries late that were late, except for one that reaches the started state in its `start()`. -/
inductive LateStep (x x' : OpSched ω) : Prop
  | same (hreached : x'.reached = x.reached)
      (hlate : ∀ i, (statusAt x'.entries i).isLate = (statusAt x.entries i).isLate)
  | start (k : Nat) (e : OpEntry ω) (hpc : x.pc = .inside k) (he : x.entries[k]? = some e) (hk : e.status.isLate)
      (hreached : x'.reached ≠ x.reached)
      (hlate : ∀ i, (statusAt x'.entries i).isLate ↔ (statusAt x.entries i).isLate ∧ i ≠ k)

theorem Inv.lateStep (hinv : x.Inv) (hact : x.act a = some x') :
    x'.flowControl.maxCredits = x.flowControl.maxCredits ∧ LateStep x x' := by
  cases loopStep_of_act hact with
  | atEnd => exact ⟨rfl, .same rfl fun _ => rfl⟩
  | skip | noCredit => exact ⟨by rw [advance_flowControl], .same advance_reached fun i => by rw [advance_entries]⟩
  | @take k e f hpc he hst hf =>
    refine ⟨?_, .same rfl fun i => congrArg isLate (statusAt_setBody he i)⟩
    rcases takeCredit_cases hf with ⟨h, -⟩ | ⟨-, -, rfl⟩
    · cases h
    · rfl
  | again hpc he | started hpc he => exact ⟨rfl, .same rfl fun i => congrArg isLate (statusAt_setBody he i)⟩
  | sub hpc he => exact ⟨rfl, .same rfl fun i => congrArg isLate (statusAt_setBody he i)⟩
  | @ret k e f f' b c o o' st hpc he hr hx =>
    have hcopies : e.status.isLate = false → e.body.copyCredit = 0 := fun hl =>
      hinv.core.copies e (mem_of_getElem? he) (ne_true_of_eq_false hl)
    obtain ⟨hmax, hmin, -, hres, hnot, -⟩ := result_spec hr hinv.core.minCredits_le hcopies
    obtain ⟨hmax', -, -, hlate, -⟩ := finishEntry_spec hres hx hmin
    refine ⟨by rw [advance_flowControl, hmax', hmax], ?_⟩
    have hst : ∀ i, statusAt (x.entries.set k { e with status := st, body := b }) i =
        if i = k then st else statusAt x.entries i := fun i => statusAt_set he i
    by_cases hstart : e.status.isLate ∧ ¬ st.isLate
    · refine .start k e hpc he hstart.1 ?_ fun i => ?_
      · rw [advance_reached, if_pos hstart]
        simp
      · rw [advance_entries, hst]
        by_cases hi : i = k
        · simp [hi, hstart.2]
        · simp [hi]
    · refine .same (by rw [advance_reached, if_neg hstart]) fun i => ?_
      rw [advance_entries, hst]
      split
      next hi =>
        rw [hi, statusAt_of_get he]
        cases hl : e.status.isLate with
        | true => exact Decidable.not_not.mp fun h => hstart ⟨hl, h⟩
        | false => exact Bool.eq_false_iff.mpr fun h => hnot hl (hlate.mp h)
      next => rfl

theorem barriers_of_act (hact : x.act a = some x') :
    x'.entries.map CclEntry.barrier = x.entries.map CclEntry.barrier := by
  have hskel := congrArg (map Prod.fst) (skeleton_of_act hact)
  rwa [skeleton, skeleton, map_map, map_map] at hskel

/-- The entries before an entry that are not complete hold a credit each, and so does the entry. -/
theorem countP_credit_le {l : List (OpEntry ω)} {p : Nat → Bool} (he : l[k]? = some e)
    (hp : ∀ i < k, p i = true → (statusAt l i).credit = 1) : (range k).countP p + e.status.credit ≤ creditSum l := by
  induction l generalizing k p with
  | nil => cases he
  | cons y l ih =>
    have hsum : creditSum (y :: l) = y.credit + creditSum l := by rw [creditSum, map_cons, sum_cons]; rfl
    have hy : y.status.credit ≤ y.credit := Nat.le_add_right ..
    cases k with
    | zero =>
      cases he
      rw [hsum, range_zero, countP_nil]
      omega
    | succ k =>
      have hrest := ih (k := k) (p := fun i => p (i + 1)) he fun i hi h => hp (i + 1) (Nat.succ_lt_succ hi) h
      have hhead : (if p 0 = true then 1 else 0) ≤ y.credit := by
        split
        next h => exact (hp 0 k.succ_pos h).symm.le.trans hy
        next => exact Nat.zero_le _
      rw [hsum, range_succ_eq_map, countP_cons, countP_map]
      have hcomp : (p ∘ Nat.succ) = fun i => p (i + 1) := rfl
      rw [hcomp]
      omega

end CclSched

open CclSched

/-! ## The workers and the net -/

/-- What a worker takes for complete is done. -/
def Sees (s : State ι ρ χ M δ) (t : ι) (x : OpSched ω) : Prop :=
  ∀ i, (statusAt x.entries i).isCompleted → s.stageAt (t, i) = .done

/-- A new schedule of the entries of a task. -/
structure Loads (N : Net ι ρ χ κ M δ) (t : ι) (x : OpSched ω) : Prop where
  new : x.NewSched
  barriers : x.entries.map CclEntry.barrier = (N.prog t).map Entry.barrier
  credits : x.flowControl.maxCredits = N.credits t

/-- The state of the net shows what the schedule of a task has started, and all that it takes for complete. -/
structure Follows (N : Net ι ρ χ κ M δ) (s : State ι ρ χ M δ) (t : ι) (x : OpSched ω) : Prop where
  inv : x.Inv
  barriers : x.entries.map CclEntry.barrier = (N.prog t).map Entry.barrier
  credits : x.flowControl.maxCredits = N.credits t
  started : ∀ i, i < s.started t ↔ ¬ (statusAt x.entries i).isLate
  sees : Sees s t x

section

variable {N : Net ι ρ χ κ M δ} {s : State ι ρ χ M δ} {t : ι} {mem : ρ → M} {x : OpSched ω} {k : Nat}

theorem Loads.follows (h : Loads N t x) : Follows N (State.init mem) t x := by
  have hst : ∀ i, statusAt x.entries i = .notStarted := by
    intro i
    unfold statusAt
    cases hi : x.entries[i]? with
    | none => rfl
    | some e => exact h.new.status e (mem_of_getElem? hi)
  refine ⟨h.new.inv, h.barriers, h.credits, fun i => ?_, fun i hi => ?_⟩
  · rw [hst]
    exact ⟨fun hi => absurd hi (Nat.not_lt_zero i), fun hi => absurd rfl hi⟩
  · rw [hst] at hi
    cases hi

theorem Follows.barrier (h : Follows N s t x) (i : Nat) : N.barrier (t, i) = barrierAt x.entries i := by
  have hi := congrArg (·[i]?) h.barriers
  simp only [getElem?_map] at hi
  unfold Net.barrier barrierAt
  cases hx : x.entries[i]? <;> cases hn : (N.prog t)[i]? <;> simp_all

/-- **What a worker starts the net lets start**: it is the next entry of the task, all up to the last barrier is done, and
there is a credit for it. -/
theorem Follows.canStart (h : Follows N s t x) (hactive : N.Active s t) {e : OpEntry ω} (hpc : x.pc = .inside k)
    (he : x.entries[k]? = some e) (hk : e.status.isLate) : s.started t = k ∧ N.CanStart s t := by
  have hin := h.inv.at_pc
  have hcore := h.inv.core
  simp only [PcInv, hpc] at hin
  simp only [insideCredit, hpc] at hcore
  obtain ⟨hat, hbefore, hcomp⟩ := hin
  have hstarted : s.started t = k := by
    refine le_antisymm (not_lt.mp fun hlt => (h.started k).mp hlt (statusAt_of_get he ▸ hk)) (not_lt.mp fun hlt => ?_)
    exact lt_irrefl _ ((h.started _).mpr (hbefore _ hlt))
  refine ⟨hstarted, hactive, fun b hb hbar j hj => ?_, ?_⟩
  · rw [h.barrier] at hbar
    exact h.sees j (hat.barriers b (hstarted ▸ hb) hbar j hj)
  · -- an entry in flight holds a credit, and the one that starts has its own
    have hflight := countP_credit_le (p := fun i => decide (s.stageAt (t, i) ≠ .done)) he fun i hi hdone => by
      have hnot : ¬ (statusAt x.entries i).isCompleted := fun hc => of_decide_eq_true hdone (h.sees i hc)
      rw [(not_late_iff hnot).mp (hbefore i hi)]
      rfl
    have hcredit := credit_of_not_completed hcomp
    have hsum := hcore.credits
    rw [statusAt_of_get he] at hcredit hsum
    unfold Net.inflight
    rw [hstarted, ← h.credits]
    omega

theorem follows_update [DecidableEq ι] {xs : ι → OpSched ω} {x' : OpSched ω} (h : ∀ u ∈ N.tasks, u ≠ t → Follows N s u (xs u))
    (hx' : Follows N s t x') : ∀ u ∈ N.tasks, Follows N s u (update xs t x' u) := by
  intro u hu
  by_cases hut : u = t
  · subst hut
    rwa [update_self]
  · rw [update_of_ne hut]
    exact h u hu hut

end

section

variable [DecidableEq ι] [DecidableEq ρ] [DecidableEq χ]

/-- The next entry of a task posts its operation. Nothing asks whether it may. -/
inductive Launch (N : Net ι ρ χ κ M δ) (s : State ι ρ χ M δ) (t : ι) : State ι ρ χ M δ → Prop
  | act {f} (hop : N.op (t, s.started t) = some (.act f)) : Launch N s t ((s.start t .done).onMem (N.rank t) f)
  | send {c read} (hop : N.op (t, s.started t) = some (.send c read)) :
      Launch N s t ((s.start t .posted).pushSend c (t, s.started t))
  | recv {c fits store finish} (hop : N.op (t, s.started t) = some (.recv c fits store finish)) :
      Launch N s t ((s.start t .posted).pushRecv c (t, s.started t))
  | sync {k} (hop : N.op (t, s.started t) = some (.sync k)) : Launch N s t (s.start t .posted)
  | sub {t'} (hop : N.op (t, s.started t) = some (.sub t')) : Launch N s t (s.start t .posted)

/-- A step of the transport, a new call of `do_progress`, or a step of a call, in which an entry may reach the started
state. -/
inductive WorkStep (N : Net ι ρ χ κ M δ) :
    (ι → OpSched ω) × State ι ρ χ M δ → (ι → OpSched ω) × State ι ρ χ M δ → Prop
  | net {xs s s'} (h : N.Step s s') (hstarted : s'.started = s.started) : WorkStep N (xs, s) (xs, s')
  | call {xs s t} (ht : t ∈ N.tasks) (hpc : (xs t).pc = .ready ∨ (xs t).pc = .left) :
      WorkStep N (xs, s) (update xs t (xs t).call, s)
  | loop {xs s t a x'} (ht : t ∈ N.tasks) (h : (xs t).act a = some x') (hreached : x'.reached = (xs t).reached)
      (hsees : Sees s t x') : WorkStep N (xs, s) (update xs t x', s)
  | start {xs s s' t a x'} (ht : t ∈ N.tasks) (h : (xs t).act a = some x') (hreached : x'.reached ≠ (xs t).reached)
      (hactive : N.Active s t) (hlaunch : Launch N s t s') (hsees : Sees s' t x') :
      WorkStep N (xs, s) (update xs t x', s')

variable {N : Net ι ρ χ κ M δ} {s s' : State ι ρ χ M δ} {t : ι} {mem : ρ → M} {xs ys : ι → OpSched ω}

/-- What is posted when it may be is a step of the net. -/
theorem Launch.step (h : Launch N s t s') (hcan : N.CanStart s t) : N.Step s s' := by
  cases h with
  | act hop => exact .act hop hcan
  | send hop => exact .postSend hop hcan
  | recv hop => exact .postRecv hop hcan
  | sync hop => exact .postSync hop hcan
  | sub hop => exact .postSub hop hcan

theorem Launch.started (h : Launch N s t s') : s'.started = update s.started t (s.started t + 1) := by
  cases h <;> rfl

/-- **A step of the workers is a step of the net**, or none, and keeps the relation. -/
theorem Follows.step {xs xs' : ι → OpSched ω} (h : ∀ t ∈ N.tasks, Follows N s t (xs t))
    (hstep : WorkStep N (xs, s) (xs', s')) :
    (s' = s ∨ N.Step s s') ∧ ∀ t ∈ N.tasks, Follows N s' t (xs' t) := by
  cases hstep with
  | net hs hstarted =>
    refine ⟨.inr hs, fun t ht => ?_⟩
    have h := h t ht
    exact ⟨h.inv, h.barriers, h.credits, fun i => hstarted ▸ h.started i, fun i hi => hs.done (h.sees i hi)⟩
  | @call _ _ t ht hpc =>
    have h' := h t ht
    exact ⟨.inl rfl, follows_update (fun u hu _ => h u hu)
      ⟨h'.inv.call hpc, h'.barriers, h'.credits, h'.started, h'.sees⟩⟩
  | @loop _ _ t a x' ht hact hreached hsees =>
    have h' := h t ht
    obtain ⟨hmax, hlate⟩ := h'.inv.lateStep hact
    refine ⟨.inl rfl, follows_update (fun u hu _ => h u hu) ⟨h'.inv.loopStep (loopStep_of_act hact),
      (barriers_of_act hact).trans h'.barriers, hmax.trans h'.credits, fun i => ?_, hsees⟩⟩
    cases hlate with
    | same _ hlate => rw [hlate]; exact h'.started i
    | start _ _ _ _ _ hne => exact absurd hreached hne
  | @start _ _ _ t a x' ht hact hreached hactive hlaunch hsees =>
    have h' := h t ht
    obtain ⟨hmax, hlate⟩ := h'.inv.lateStep hact
    cases hlate with
    | same heq => exact absurd heq hreached
    | start k e hpc he hk _ hlate =>
      obtain ⟨rfl, hcan⟩ := h'.canStart hactive hpc he hk
      have hs := hlaunch.step hcan
      refine ⟨.inr hs, follows_update (fun u hu hut => ?_) ⟨h'.inv.loopStep (loopStep_of_act hact),
        (barriers_of_act hact).trans h'.barriers, hmax.trans h'.credits, fun i => ?_, hsees⟩⟩
      · have h := h u hu
        refine ⟨h.inv, h.barriers, h.credits, fun i => ?_, fun i hi => hs.done (h.sees i hi)⟩
        rw [hlaunch.started, update_of_ne hut]
        exact h.started i
      · rw [hlate, hlaunch.started, update_self]
        by_cases hi : i = s.started t
        · simp [hi]
        · rw [and_iff_left hi, ← h'.started i]
          omega

/-- **The runs of the workers are runs of the net.** -/
theorem workers_reach {xs : ι → OpSched ω} (hload : ∀ t ∈ N.tasks, Loads N t (xs t))
    {p : (ι → OpSched ω) × State ι ρ χ M δ} (hrun : Relation.ReflTransGen (WorkStep N) (xs, .init mem) p) :
    N.Reach mem p.2 ∧ ∀ t ∈ N.tasks, Follows N p.2 t (p.1 t) := by
  induction hrun with
  | refl => exact ⟨.refl, fun t ht => (hload t ht).follows⟩
  | tail _ hstep ih =>
    obtain ⟨hs, hfollows⟩ := Follows.step ih.2 hstep
    refine ⟨?_, hfollows⟩
    rcases hs with heq | hs
    · exact heq ▸ ih.1
    · exact ih.1.tail hs

/-- **When the workers are through**, the net has done what it completes with. -/
theorem workers_complete {Q : State ι ρ χ M δ → Prop} (hN : N.Completes mem Q) {xs ys : ι → OpSched ω}
    (hload : ∀ t ∈ N.tasks, Loads N t (xs t))
    (hrun : Relation.ReflTransGen (WorkStep N) (xs, .init mem) (ys, s)) (hfin : ∀ t ∈ N.tasks, (ys t).Finished) :
    Q s := by
  obtain ⟨hreach, hfollows⟩ := workers_reach hload hrun
  have hfinal : N.Final s := by
    intro t i hi
    by_cases ht : t ∈ N.tasks
    · have h : Follows N s t (ys t) := hfollows t ht
      have hlen := congrArg length h.barriers
      rw [length_map, length_map] at hlen
      exact h.sees i (h.inv.core.leading i (by rw [(hfin t ht).2]; omega))
    · rw [N.quiet t ht] at hi
      exact absurd hi (Nat.not_lt_zero i)
  exact (hN.final s hreach fun s' hs => hfinal.stuck hs).2

end

/-! ## The schedules of a collective -/

/-- The schedule of a builder, as the worker finds it. -/
def Sched.load (s : Sched) : OpSched EntryKind where
  startIdx := 0
  flowControl := .setMaxCredits maxFlowCredits
  entries := s.entries.map fun e => ⟨.notStarted, e.barrier, .regular, .op e.kind none⟩
  pc := .ready
  reached := []

/-- **A collective that the workers run** ends as its contract says. -/
theorem schedNet_workers_complete {α : Type} {op : α → α → α} {n tag : Nat} {eager : Nat → Nat → Bool}
    {sched : Nat → Sched} {mem : Nat → Mem α} {Q : State Nat Nat Chan (Mem α) (List α) → Prop}
    (h : (schedNet op n tag eager sched).Completes mem Q) {ys : Nat → OpSched EntryKind}
    {s : State Nat Nat Chan (Mem α) (List α)}
    (hrun : Relation.ReflTransGen (WorkStep (schedNet op n tag eager sched)) (fun r => (sched r).load, .init mem) (ys, s))
    (hfin : ∀ r < n, (ys r).Finished) : Q s := by
  refine workers_complete h (fun r hr => ⟨⟨rfl, rfl, rfl, ⟨_, rfl⟩, fun e he => ?_, fun e he => ?_⟩, ?_, rfl⟩) hrun
    fun r hr => hfin r (mem_range.mp hr)
  · obtain ⟨_, -, rfl⟩ := mem_map.mp he
    rfl
  · obtain ⟨_, -, rfl⟩ := mem_map.mp he
    rfl
  · have hprog : (schedNet op n tag eager sched).prog r = (sched r).entries.map (·.toEntry op r tag id) :=
      if_pos (mem_range.mp hr)
    rw [hprog, map_map]
    exact map_map

end OneCcl
