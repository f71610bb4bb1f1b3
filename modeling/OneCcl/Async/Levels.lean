import Mathlib.Algebra.Order.BigOperators.Group.Finset
import Mathlib.Data.Finset.Max
import OneCcl.Async.Plan

/-!
# No run gets stuck

A run is finite because every step takes one entry up (`acc`). That a run does not stop early is
shown with **levels**: a level for every entry such that the two ends of a message, and the entries of
one meeting, are at one level, and an entry needs for its start only that lower levels are done, with
credits to spare for what is started at its own level and above. In a reachable state that is not
final, something at the lowest level that is not done can move (`Levels.progress`).

`Plan.completes` puts the two together with what every run computes.
-/

namespace Async

open List Function State

variable {ι ρ χ κ M δ : Type}
variable {N : Net ι ρ χ κ M δ} {s : State ι ρ χ M δ} {mem : ρ → M} {W : N.Wiring}

namespace Net

variable {Λ : Type} [LinearOrder Λ] {x : ι × Nat}

/-! ## Levels -/

def IsAct (N : Net ι ρ χ κ M δ) (x : ι × Nat) : Prop := ∃ f, N.op x = some (.act f)

/-- With everything below a level done, the task can start its entries up to the `j`-th: what barriers
hold them back for is lower, and what else was started leaves a credit. -/
structure Ready (N : Net ι ρ χ κ M δ) (lvl : ι × Nat → Λ) (x : ι × Nat) (ℓ : Λ) : Prop where
  below : ∀ i b, i ≤ b → b < x.2 → N.barrier (x.1, b) = true → ¬ N.IsAct (x.1, i) → lvl (x.1, i) < ℓ
  credit : ∀ p : Nat → Bool, (∀ i < x.2, p i = true → ¬ N.IsAct (x.1, i) ∧ ℓ ≤ lvl (x.1, i)) →
    (range x.2).countP p < N.credits x.1

variable {lvl : ι × Nat → Λ} {ℓ : Λ} {y : ι × Nat}

theorem Ready.lower (h : N.Ready lvl x (lvl x))
    (hgap : ∀ i < x.2, ¬ N.IsAct (x.1, i) → lvl (x.1, i) < lvl x → lvl (x.1, i) < ℓ) : N.Ready lvl x ℓ where
  below i b hib hb hbar hna := hgap i (hib.trans_lt hb) hna (h.below i b hib hb hbar hna)
  credit p hp := by
    refine h.credit p fun i hi hpi => ⟨(hp i hi hpi).1, ?_⟩
    by_contra hlt
    exact absurd (hgap i hi (hp i hi hpi).1 (not_le.mp hlt)) (not_lt.mpr (hp i hi hpi).2)

/-- The second task is the first, or is run by it, directly or through others. -/
inductive Under (N : Net ι ρ χ κ M δ) : ι → ι → Prop
  | refl (t) : Under N t t
  | sub {p t u} (hop : N.op p = some (.sub t)) (h : Under N t u) : Under N p.1 u

theorem Ordered.under_done (o : N.Ordered s) {t u : ι} (h : N.Under t u)
    (hdone : ∀ j < (N.prog t).length, s.stageAt (t, j) = .done) : ∀ j < (N.prog u).length, s.stageAt (u, j) = .done := by
  induction h with
  | refl t => exact hdone
  | @sub p t u hop _ ih => exact ih (o.child p t hop (hdone p.2 (lt_length_of_op hop)))

theorem exists_op (h : x.2 < (N.prog x.1).length) : ∃ o, N.op x = some o := by
  refine ⟨((N.prog x.1).get ⟨_, h⟩).op, ?_⟩
  rw [op, getElem?_eq_getElem h]
  rfl

theorem getElem?_of_map_eq {β γ : Type} {f : β → γ} {l l' : List β} (h : l.map f = l'.map f) {k : Nat}
    {x : β} (hx : l[k]? = some x) : ∃ y, l'[k]? = some y ∧ f x = f y := by
  have hk := congrArg (·[k]?) h
  simp only [getElem?_map, hx, Option.map_some] at hk
  obtain ⟨y, hy, hfy⟩ := Option.map_eq_some_iff.mp hk.symm
  exact ⟨y, hy, hfy.symm⟩

theorem Ordered.not_isAct (o : N.Ordered s) (hx : x.2 < s.started x.1) (hd : s.stageAt x ≠ .done) : ¬ N.IsAct x := by
  rintro ⟨f, hf⟩
  rcases o.act x f hf with h | h
  · exact o.live _ _ hx h
  · exact hd h

/-- The lowest level at which something is not done. -/
structure Lowest (N : Net ι ρ χ κ M δ) (lvl : ι × Nat → Λ) (s : State ι ρ χ M δ) (ℓ : Λ) : Prop where
  min : ∀ y : ι × Nat, y.2 < (N.prog y.1).length → s.stageAt y ≠ .done → ℓ ≤ lvl y
  hit : ∃ x : ι × Nat, x.2 < (N.prog x.1).length ∧ s.stageAt x ≠ .done ∧ lvl x = ℓ

theorem Lowest.done (h : N.Lowest lvl s ℓ) (hy : y.2 < (N.prog y.1).length) (hlt : lvl y < ℓ) : s.stageAt y = .done := by
  by_contra hd
  exact absurd (h.min y hy hd) (not_le.mpr hlt)

variable [DecidableEq ι]

/-- All places of a net: there are finitely many. -/
def entries (N : Net ι ρ χ κ M δ) : Finset (ι × Nat) :=
  (N.tasks.flatMap fun t => (range (N.prog t).length).map (Prod.mk t)).toFinset

theorem mem_entries : x ∈ N.entries ↔ x.2 < (N.prog x.1).length := by
  obtain ⟨t, i⟩ := x
  simp only [entries, mem_toFinset, mem_flatMap, mem_map, mem_range, Prod.mk.injEq]
  constructor
  · rintro ⟨t', -, j, hj, rfl, rfl⟩
    exact hj
  · intro hi
    refine ⟨t, ?_, i, hi, rfl, rfl⟩
    by_contra ht
    rw [N.quiet t ht] at hi
    exact Nat.not_lt_zero _ hi

/-- Unless everything is done, there is a lowest level at which something is not. -/
theorem exists_lowest (lvl : ι × Nat → Λ) (hnf : ¬ N.Final s) : ∃ ℓ, N.Lowest lvl s ℓ := by
  obtain ⟨t, i, hi, hd⟩ : ∃ t, ∃ i, i < (N.prog t).length ∧ s.stageAt (t, i) ≠ .done := by
    by_contra h
    refine hnf fun t i hi => ?_
    by_contra hd
    exact h ⟨t, i, hi, hd⟩
  have hne : (N.entries.filter fun y => s.stageAt y ≠ .done).Nonempty :=
    ⟨(t, i), Finset.mem_filter.mpr ⟨mem_entries.mpr hi, hd⟩⟩
  obtain ⟨x, hx, hmin⟩ := Finset.exists_min_image _ lvl hne
  obtain ⟨h1, h2⟩ := Finset.mem_filter.mp hx
  exact ⟨lvl x, fun y hy hyd => hmin y (Finset.mem_filter.mpr ⟨mem_entries.mpr hy, hyd⟩),
    x, mem_entries.mp h1, h2, rfl⟩

variable [DecidableEq ρ] [DecidableEq χ]

/-- Levels for a net: the two ends of a channel agree on the level of each message, a meeting is on one level and above
all that its tasks do before it, and a child task is below the entry that stands for it. -/
structure Levels (N : Net ι ρ χ κ M δ) (W : N.Wiring) (lvl : ι × Nat → Λ) : Prop where
  ready : ∀ x, x.2 < (N.prog x.1).length → N.Ready lvl x (lvl x)
  matched : ∀ c, (W.sends c).map lvl = (W.recvs c).map lvl
  sync_above : ∀ x k, N.op x = some (.sync k) → ∀ i < x.2, ¬ N.IsAct (x.1, i) → lvl (x.1, i) < lvl x
  sync_level : ∀ x y k, N.op x = some (.sync k) → N.op y = some (.sync k) → lvl x = lvl y
  sub_above : ∀ p t, N.op p = some (.sub t) → ∀ j < (N.prog t).length, lvl (t, j) < lvl p
  sub_ready : ∀ p t, N.op p = some (.sub t) → ∀ y : ι × Nat, N.Under t y.1 → y.2 < (N.prog y.1).length →
    N.Ready lvl p (lvl y)
  sub_deep : ∃ depth : ι → Nat, ∀ p t, N.op p = some (.sub t) → depth p.1 < depth t

/-! ## Every run is finite -/

/-- How many steps the entries are still away from done. -/
def work (N : Net ι ρ χ κ M δ) (s : State ι ρ χ M δ) : Nat :=
  ∑ x ∈ N.entries, (3 - (s.stageAt x).height)

/-- Every step brings one entry further and none back. -/
theorem Step.work_lt {s' : State ι ρ χ M δ} (h : N.Step s s') : N.work s' < N.work s := by
  obtain ⟨x, st, hg, hst, -⟩ := h.guard
  obtain ⟨o, ho⟩ := hg.op_eq
  have h3 : ∀ st : Stage, st.height ≤ 3 := fun st => by cases st <;> decide
  refine Finset.sum_lt_sum (fun y _ => ?_) ⟨x, mem_entries.mpr (lt_length_of_op ho), ?_⟩
  · have := h.height_le y
    omega
  · have := hg.height_lt
    have := h3 st
    rw [hst, update_self]
    omega

/-- No run goes on forever. -/
theorem acc (N : Net ι ρ χ κ M δ) (s : State ι ρ χ M δ) : Acc (fun s' s => N.Step s s') s :=
  Subrelation.accessible (fun h => h.work_lt) ((measure N.work).wf.apply s)

/-! ## Starting an entry -/

theorem CanStart.step {t : ι} (h : N.CanStart s t) (hlt : s.started t < (N.prog t).length) : ∃ s', N.Step s s' := by
  obtain ⟨o, ho⟩ := exists_op (x := (t, s.started t)) hlt
  cases o with
  | act f => exact ⟨_, .act ho h⟩
  | send c read => exact ⟨_, .postSend ho h⟩
  | recv c fits store finish => exact ⟨_, .postRecv ho h⟩
  | sync k => exact ⟨_, .postSync ho h⟩
  | sub t' => exact ⟨_, .postSub ho h⟩

/-- **A task whose entry is ready at the lowest open level starts something.** -/
theorem Ready.step (o : N.Ordered s) (h : N.Ready lvl x ℓ)
    (hmin : ∀ y, y.2 < (N.prog y.1).length → s.stageAt y ≠ .done → ℓ ≤ lvl y) (hact : N.Active s x.1)
    (hx : x.2 < (N.prog x.1).length) (hidle : s.stageAt x = .idle) : ∃ s', N.Step s s' := by
  have hle : s.started x.1 ≤ x.2 := by
    by_contra hlt
    exact o.live _ _ (not_le.mp hlt) hidle
  -- what is started before `x` and not done is at the open level or above
  have hopen : ∀ i < s.started x.1, s.stageAt (x.1, i) ≠ .done →
      ¬ N.IsAct (x.1, i) ∧ ℓ ≤ lvl (x.1, i) := fun i hi hd =>
    ⟨o.not_isAct hi hd, hmin (x.1, i) ((Nat.lt_of_lt_of_le hi hle).trans hx) hd⟩
  refine CanStart.step (t := x.1) ⟨hact, fun b hb hbar j hj => ?_, ?_⟩ (hle.trans_lt hx)
  · by_contra hd
    obtain ⟨hna, hl⟩ := hopen j (hj.trans_lt hb) hd
    exact absurd hl (not_le.mpr (h.below j b hj (hb.trans_le hle) hbar hna))
  · let p : Nat → Bool := fun i => decide (i < s.started x.1) && decide (s.stageAt (x.1, i) ≠ .done)
    calc inflight s x.1
        = (range (s.started x.1)).countP p := by
          refine countP_congr fun i hi => ?_
          simp only [p, decide_eq_true (mem_range.mp hi), Bool.true_and]
      _ ≤ (range x.2).countP p :=
          List.Sublist.countP_le (range_sublist.mpr hle)
      _ < N.credits x.1 := h.credit p fun i _ hp => by
          obtain ⟨h1, h2⟩ := Bool.and_eq_true_iff.mp hp
          exact hopen i (of_decide_eq_true h1) (of_decide_eq_true h2)

/-! ## Progress -/

/-- Of a send the transport has read, the message is on the wire: an invariant of the steps. -/
theorem Reach.wire_of_send (h : N.Reach mem s) :
    ∀ x c read, N.op x = some (.send c read) → (s.stageAt x = .moved ∨ s.stageAt x = .done) →
      ∃ d, s.wire x.1 x.2 = some d := by
  refine Reach.invariant (I := fun s => ∀ x c read, N.op x = some (.send c read) →
    (s.stageAt x = .moved ∨ s.stageAt x = .done) → ∃ d, s.wire x.1 x.2 = some d) ?_ ?_ h
  · intro x c read _ hst
    rcases hst with h | h <;> cases h
  · intro s s' _ ih hs x c read hop hst
    -- a step that leaves the wire alone: it moves another entry, posts this one, or had it read before
    have keep : ∀ y st, s'.stageAt = update s.stageAt y st → s'.wire = s.wire →
        (x = y → st = .posted ∨ s.stageAt x = .moved) → ∃ d, s'.wire x.1 x.2 = some d := by
      intro y st hstage hwire hself
      rw [hwire]
      rw [hstage] at hst
      by_cases hxy : x = y
      · rcases hself hxy with rfl | hm
        · rw [hxy, update_self] at hst
          rcases hst with h | h <;> cases h
        · exact ih x c read hop (.inl hm)
      · rw [update_of_ne hxy] at hst
        exact ih x c read hop hst
    have clash : ∀ {y o}, N.op y = some o → (∀ c read, o ≠ .send c read) → x ≠ y := by
      rintro y o hy ho rfl
      rw [hop] at hy
      exact ho c read (Option.some.inj hy).symm
    have moved : ∀ {y st st0}, s.stageAt y = st0 → st0 ≠ .idle →
        (s.move y st).stageAt = update s.stageAt y st := fun h h0 => stageAt_move (h ▸ h0)
    cases hs with
    | act hop' _ =>
      exact keep _ _ (stageAt_start ..) rfl fun h => absurd h (clash hop' (by simp))
    | postSend hop' _ | postRecv hop' _ | postSync hop' _ | postSub hop' _ =>
      exact keep _ _ (stageAt_start ..) rfl fun _ => .inl rfl
    | @read y c' read' hop' hp _ =>
      by_cases hxy : x = y
      · subst hxy
        refine ⟨read' (s.mem (N.rank x.1)), ?_⟩
        simp only [move, readOff, update_self]
      · have hy : (s.readOff y (read' (s.mem (N.rank y.1)))).stageAt y ≠ .idle := hp ▸ Stage.noConfusion
        rw [stageAt_move hy, update_of_ne hxy] at hst
        obtain ⟨d, hd⟩ := ih x c read hop hst
        exact ⟨d, wire_readOff_of_ne hxy hd⟩
    | doneSend hop' hp _ => exact keep _ _ (moved hp Stage.noConfusion) rfl fun h => .inr (h ▸ hp)
    | deliver hop' hp | doneRecv hop' hp | visit hop' hp _ | doneSync hop' hp _ | doneSub hop' hp _ =>
      exact keep _ _ (moved hp Stage.noConfusion) rfl fun h => absurd h (clash hop' (by simp))

/-- A send and a receive that are matched and both posted go on until both are done. -/
theorem Plan.step_of_matched (P : N.Plan mem) (hr : N.Reach mem s) {c : χ} (hm : Matched s c x y)
    (hx : s.stageAt x ≠ .idle) (hy : s.stageAt y ≠ .idle) (hd : s.stageAt x ≠ .done ∨ s.stageAt y ≠ .done) :
    ∃ s', N.Step s s' := by
  have o := hr.ordered
  have posted := hr.posted P.toWiring
  obtain ⟨read, hsend⟩ : ∃ read, N.op x = some (.send c read) := by
    obtain ⟨k, hk, -⟩ := posted.matched_at o hm
    exact (P.toWiring.mem_sends.mp (mem_of_getElem? hk))
  obtain ⟨fits, store, finish, hrecv⟩ : ∃ fits store finish, N.op y = some (.recv c fits store finish) := by
    obtain ⟨k, -, hk⟩ := posted.matched_at o hm
    exact (P.toWiring.mem_recvs.mp (mem_of_getElem? hk))
  by_cases hx1 : s.stageAt x = .posted
  · exact ⟨_, .read hsend hx1 (.inr ⟨y, hm⟩)⟩
  · have hx2 : s.stageAt x = .moved ∨ s.stageAt x = .done := by
      cases h : s.stageAt x with
      | idle => exact absurd h hx
      | posted => exact absurd h hx1
      | moved => exact .inl rfl
      | done => exact .inr rfl
    obtain ⟨d, hw⟩ := hr.wire_of_send x c read hsend hx2
    cases hst : s.stageAt y with
    | idle => exact absurd hst hy
    | posted =>
      have hmsg : d = P.msg y := ((P.follows hr).wire x d hw).trans (posted.msg_eq o (P.paired c) hm)
      exact ⟨_, .deliver hrecv hst hm hw (hmsg ▸ P.fits y _ hrecv)⟩
    | moved => exact ⟨_, .doneRecv hrecv hst⟩
    | done =>
      have hx3 : s.stageAt x = .moved := hx2.resolve_right (hd.resolve_right (not_not_intro hst))
      exact ⟨_, .doneSend hsend hx3 (.inr ⟨y, hm, .inr hst⟩)⟩

/-- The task of an entry at the lowest level runs, and so do the tasks it is run by: else the entry that stands for the
first one that does not could be started. -/
theorem Levels.active (L : N.Levels W lvl) (o : N.Ordered s)
    (low : N.Lowest lvl s (lvl y)) (hstuck : ¬ ∃ s', N.Step s s') (hy : y.2 < (N.prog y.1).length)
    (hidle : s.stageAt y = .idle) {t : ι} (ht : N.Under t y.1) : N.Active s t := by
  obtain ⟨depth, hdepth⟩ := L.sub_deep
  induction hn : depth t using Nat.strong_induction_on generalizing t with
  | _ n ih =>
    by_cases hroot : N.IsRoot t
    · exact .inl hroot
    · obtain ⟨p, hp⟩ : ∃ p, N.op p = some (.sub t) := by
        by_contra h
        exact hroot fun p hp => h ⟨p, hp⟩
      have hact := ih (depth p.1) (hn ▸ hdepth p t hp) (.sub hp ht) rfl
      refine .inr ⟨p, hp, ?_⟩
      cases hst : s.stageAt p with
      | posted => rfl
      | idle => exact absurd ((L.sub_ready p t hp y ht hy).step o low.min hact (lt_length_of_op hp) hst) hstuck
      | moved => exact absurd hst (o.sub p _ hp)
      | done =>
        have := o.under_done ht (o.child p t hp hst) y.2 hy
        rw [show s.stageAt (y.1, y.2) = .idle from hidle] at this
        cases this

/-- In a state without a step, all of the lowest level is posted. -/
theorem Levels.live (L : N.Levels W lvl) (o : N.Ordered s) (low : N.Lowest lvl s ℓ)
    (hstuck : ¬ ∃ s', N.Step s s') (hy : y.2 < (N.prog y.1).length) (hly : lvl y = ℓ) : s.stageAt y ≠ .idle := by
  subst hly
  intro hidle
  exact hstuck ((L.ready y hy).step o low.min (L.active o low hstuck hy hidle (.refl _)) hy hidle)

/-- A meeting at the lowest level goes on: the next task visits it, or all have and it ends. -/
theorem Levels.step_of_sync (L : N.Levels W lvl) (o : N.Ordered s) (low : N.Lowest lvl s ℓ)
    (hlive : ∀ y : ι × Nat, y.2 < (N.prog y.1).length → lvl y = ℓ → s.stageAt y ≠ .idle) {k : κ}
    (hop : N.op x = some (.sync k)) (hlx : lvl x = ℓ) (hd : s.stageAt x ≠ .done) : ∃ s', N.Step s s' := by
  by_cases hp : ∃ y, N.op y = some (.sync k) ∧ s.stageAt y = .posted
  · obtain ⟨y, hy, hst⟩ := hp
    refine ⟨_, .visit hy hst fun j hj => ?_⟩
    -- before a meeting everything is lower, or a local action, done when it was started
    have hjs : j < s.started y.1 := hj.trans (lt_started (i := y.2) (by rw [hst]; nofun))
    by_contra hjd
    have hlt := L.sync_above y k hy j hj (o.not_isAct hjs hjd)
    rw [L.sync_level y x k hy hop, hlx] at hlt
    exact hjd (low.done (hj.trans (lt_length_of_op hy)) hlt)
  · have hall : ∀ y, N.op y = some (.sync k) → s.stageAt y = .moved ∨ s.stageAt y = .done := by
      intro y hy
      cases hst : s.stageAt y with
      | idle => exact absurd hst (hlive y (lt_length_of_op hy) ((L.sync_level y x k hy hop).trans hlx))
      | posted => exact absurd ⟨y, hy, hst⟩ hp
      | moved => exact .inl rfl
      | done => exact .inr rfl
    exact ⟨_, .doneSync hop ((hall x hop).resolve_right hd) hall⟩

/-- **Progress.** In a reachable state that is not final, the net has a step. -/
theorem Levels.progress {P : N.Plan mem} (L : N.Levels P.toWiring lvl) (hr : N.Reach mem s)
    (hnf : ¬ N.Final s) : ∃ s', N.Step s s' := by
  have o := hr.ordered
  have posted := hr.posted P.toWiring
  obtain ⟨ℓ, low⟩ := exists_lowest lvl hnf
  by_contra hstuck
  have hlive : ∀ y : ι × Nat, y.2 < (N.prog y.1).length → lvl y = ℓ → s.stageAt y ≠ .idle :=
    fun y hy hly => L.live o low hstuck hy hly
  obtain ⟨x, hx, hxd, hlx⟩ := low.hit
  obtain ⟨op, hop⟩ := exists_op hx
  refine hstuck ?_
  cases op with
  | act f =>
    rcases o.act x f hop with h | h
    · exact absurd h (hlive x hx hlx)
    · exact absurd h hxd
  | send c read =>
    -- the other end stands at the same place of its text, at the same level
    obtain ⟨k, hk⟩ := getElem?_of_mem (P.toWiring.mem_sends.mpr ⟨read, hop⟩)
    obtain ⟨y, hy, hly⟩ := getElem?_of_map_eq (L.matched c) hk
    have hy' := (mem_picked.mp (mem_of_getElem? hy))
    have hyl := hlive y (by rw [hy'.1]; exact hy'.2.1) (hly ▸ hlx)
    exact P.step_of_matched hr (posted.matched_of_started o hk hy (hlive x hx hlx) hyl) (hlive x hx hlx) hyl
      (.inl hxd)
  | recv c fits store finish =>
    obtain ⟨k, hk⟩ := getElem?_of_mem (P.toWiring.mem_recvs.mpr ⟨fits, store, finish, hop⟩)
    obtain ⟨y, hy, hly⟩ := getElem?_of_map_eq (L.matched c).symm hk
    have hy' := (mem_picked.mp (mem_of_getElem? hy))
    have hyl := hlive y (by rw [hy'.1]; exact hy'.2.1) (hly ▸ hlx)
    exact P.step_of_matched hr (posted.matched_of_started o hy hk hyl (hlive x hx hlx)) hyl (hlive x hx hlx)
      (.inr hxd)
  | sync k => exact L.step_of_sync o low hlive hop hlx hxd
  | sub t =>
    have hst : s.stageAt x = .posted := by
      cases h : s.stageAt x with
      | idle => exact absurd h (hlive x hx hlx)
      | posted => rfl
      | moved => exact absurd h (o.sub x t hop)
      | done => exact absurd h hxd
    exact ⟨_, .doneSub hop hst fun j hj => low.done (y := (t, j)) hj (hlx ▸ L.sub_above x t hop j hj)⟩

/-- **A net with a plan and levels completes**, whatever the order, and leaves the plan's result. -/
theorem Plan.completes (P : N.Plan mem) (L : N.Levels P.toWiring lvl) :
    N.Completes mem fun s => ∀ r, s.mem r = P.result r := by
  refine ⟨N.acc _, fun s hr hs => ?_⟩
  have hf : N.Final s := by
    by_contra hnf
    obtain ⟨s', h⟩ := L.progress hr hnf
    exact hs s' h
  exact ⟨hf, P.mem_final hr hf⟩

end Net

end Async
