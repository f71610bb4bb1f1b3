import OneCcl.Async.Machine

/-!
# The order every run keeps

What a step does to the stages of a net is one entry going one or more stages up, under a guard
(`Step.guard`). Everything the order of a run rests on is derived from that: entries start in list
order, a barrier holds back what is behind it, a meeting waits for everything before it in every
task, a child task runs between the start and the end of the entry that stands for it.

`Net.Dep x y` collects these into one relation on entries, and `Reach.dep` is the law: in every
reachable state, when `y` was started, `x` is done.
-/

namespace Async

open Function State Stage

variable {ι ρ χ κ M δ : Type}
variable {s s' : State ι ρ χ M δ} {d : δ} {N : Net ι ρ χ κ M δ} {mem : ρ → M}

/-- How many stages an entry has behind it. -/
def Stage.height : Stage → Nat
  | .idle => 0
  | .posted => 1
  | .moved => 2
  | .done => 3

def Op.isAct : Op ι χ κ M δ → Bool
  | .act _ => true
  | _ => false

/-- The stage an entry is in right after its start: a local action is done at once. -/
def Op.startStage (o : Op ι χ κ M δ) : Stage := if o.isAct then .done else .posted

/-! ## Stages after an update -/

namespace State

variable {t : ι} {i : Nat} {x y : ι × Nat} {st : Stage}

theorem stageAt_of_lt (h : i < s.started t) : s.stageAt (t, i) = s.stage t i := if_pos h

theorem stageAt_of_le (h : s.started t ≤ i) : s.stageAt (t, i) = .idle := if_neg h.not_gt

theorem lt_started (h : s.stageAt (t, i) ≠ .idle) : i < s.started t := by
  by_contra hlt
  exact h (stageAt_of_le (not_lt.mp hlt))

@[simp] theorem stageAt_onMem [DecidableEq ρ] (s : State ι ρ χ M δ) (r : ρ) (f : M → M) :
    (s.onMem r f).stageAt = s.stageAt := rfl

@[simp] theorem stageAt_pushSend [DecidableEq χ] (s : State ι ρ χ M δ) (c : χ) (x : ι × Nat) :
    (s.pushSend c x).stageAt = s.stageAt := rfl

@[simp] theorem stageAt_pushRecv [DecidableEq χ] (s : State ι ρ χ M δ) (c : χ) (x : ι × Nat) :
    (s.pushRecv c x).stageAt = s.stageAt := rfl

@[simp] theorem stageAt_init (mem : ρ → M) (x : ι × Nat) : (init mem : State ι ρ χ M δ).stageAt x = .idle := rfl

variable [DecidableEq ι]

theorem stageAt_move (h : s.stageAt x ≠ .idle) : (s.move x st).stageAt = update s.stageAt x st := by
  obtain ⟨t, i⟩ := x
  have hi : i < (s.move (t, i) st).started t := show i < s.started t from lt_started h
  funext ⟨t', i'⟩
  by_cases hy : (t', i') = (t, i)
  · cases hy
    rw [update_self, stageAt_of_lt hi]
    simp only [move, update_self]
  · rw [update_of_ne hy]
    -- away from the moved entry the stage table is the old one
    have hst : (s.move (t, i) st).stage t' i' = s.stage t' i' := by
      by_cases h1 : t' = t
      · subst h1
        have h2 : i' ≠ i := fun h2 => hy (by rw [h2])
        simp only [move, update_self, update_of_ne h2]
      · simp only [move, update_of_ne h1]
    show (if _ then _ else _) = if _ then _ else _
    rw [show (s.move (t, i) st).stage (t', i').1 (t', i').2 = _ from hst]
    rfl

theorem stageAt_start (s : State ι ρ χ M δ) (t : ι) (st : Stage) :
    (s.start t st).stageAt = update s.stageAt (t, s.started t) st := by
  have hself : (s.start t st).started t = s.started t + 1 := update_self ..
  funext ⟨t', i'⟩
  by_cases h1 : t' = t
  · subst h1
    rcases lt_trichotomy i' (s.started t') with hlt | rfl | hgt
    · have h2 : i' ≠ s.started t' := hlt.ne
      rw [update_of_ne (fun h => h2 (Prod.mk.inj h).2), stageAt_of_lt hlt,
        stageAt_of_lt (by rw [hself]; omega)]
      simp only [start, move, update_self, update_of_ne h2]
    · rw [update_self, stageAt_of_lt (by rw [hself]; omega)]
      simp only [start, move, update_self]
    · have h2 : i' ≠ s.started t' := hgt.ne'
      rw [update_of_ne (fun h => h2 (Prod.mk.inj h).2), stageAt_of_le hgt.le,
        stageAt_of_le (by rw [hself]; omega)]
  · rw [update_of_ne (fun h => h1 (Prod.mk.inj h).1)]
    have hs : (s.start t st).started t' = s.started t' := update_of_ne h1 ..
    rcases lt_or_ge i' (s.started t') with hlt | hge
    · rw [stageAt_of_lt hlt, stageAt_of_lt (by rw [hs]; exact hlt)]
      simp only [start, move, update_of_ne h1]
    · rw [stageAt_of_le hge, stageAt_of_le (by rw [hs]; exact hge)]

theorem wire_readOff {e : δ} (h : ((s.readOff x d).move x st).wire y.1 y.2 = some e) :
    (y = x ∧ e = d) ∨ s.wire y.1 y.2 = some e := by
  by_cases h1 : y.1 = x.1
  · by_cases h2 : y.2 = x.2
    · refine .inl ⟨Prod.ext h1 h2, ?_⟩
      simp only [move, readOff, h1, h2, update_self, Option.some.injEq] at h
      exact h.symm
    · simp only [move, readOff, h1, update_self, update_of_ne h2] at h
      rw [← h1] at h
      exact .inr h
  · simp only [move, readOff, update_of_ne h1] at h
    exact .inr h

theorem wire_readOff_of_ne {w : Option δ} (hne : y ≠ x) (h : s.wire y.1 y.2 = w) :
    ((s.readOff x d).move x st).wire y.1 y.2 = w := by
  by_cases h1 : y.1 = x.1
  · have h2 : y.2 ≠ x.2 := fun h2 => hne (Prod.ext h1 h2)
    simp only [move, readOff, h1, update_self, update_of_ne h2]
    rw [← h1, h]
  · simp only [move, readOff, update_of_ne h1, h]

end State

/-! ## What a step does to the stages -/

namespace Net

/-- Which entry may go to which stage, and under what condition. -/
inductive Guard (N : Net ι ρ χ κ M δ) (s : State ι ρ χ M δ) : ι × Nat → Stage → Prop
  | start {t o} (hop : N.op (t, s.started t) = some o) (h : N.CanStart s t) :
      Guard N s (t, s.started t) o.startStage
  | send {x c read st st'} (hop : N.op x = some (.send c read)) (h : s.stageAt x = st)
      (hst : (st = .posted ∧ st' = .moved) ∨ (st = .moved ∧ st' = .done)) : Guard N s x st'
  | recv {x c fits store finish st st'} (hop : N.op x = some (.recv c fits store finish))
      (h : s.stageAt x = st)
      (hst : (st = .posted ∧ st' = .moved) ∨ (st = .moved ∧ st' = .done)) : Guard N s x st'
  | visit {x k} (hop : N.op x = some (.sync k)) (h : s.stageAt x = .posted)
      (hb : ∀ j < x.2, s.stageAt (x.1, j) = .done) : Guard N s x .moved
  | met {x k} (hop : N.op x = some (.sync k)) (h : s.stageAt x = .moved)
      (hv : ∀ y, N.op y = some (.sync k) → s.stageAt y = .moved ∨ s.stageAt y = .done) :
      Guard N s x .done
  | sub {x t} (hop : N.op x = some (.sub t)) (h : s.stageAt x = .posted)
      (hc : ∀ j < (N.prog t).length, s.stageAt (t, j) = .done) : Guard N s x .done

variable {x y : ι × Nat} {st : Stage}

theorem Guard.height_lt (h : N.Guard s x st) : (s.stageAt x).height < st.height := by
  cases h with
  | start hop h =>
    rw [stageAt_of_le (le_rfl)]
    unfold Op.startStage
    split <;> decide
  | send hop h hst | recv hop h hst => rcases hst with ⟨h1, h2⟩ | ⟨h1, h2⟩ <;> rw [h, h1, h2] <;> decide
  | visit hop h hb | met hop h hb | sub hop h hb => rw [h]; decide

theorem lt_length_of_op {o : Op ι χ κ M δ} (h : N.op x = some o) : x.2 < (N.prog x.1).length := by
  obtain ⟨e, he, -⟩ := Option.map_eq_some_iff.mp h
  exact lt_of_get he

theorem Guard.op_eq (h : N.Guard s x st) : ∃ o, N.op x = some o := by
  cases h with
  | start hop _ | send hop _ _ | recv hop _ _ | visit hop _ _ | met hop _ _ | sub hop _ _ => exact ⟨_, hop⟩

theorem Guard.canStart (h : N.Guard s x st) (h0 : s.stageAt x = .idle) : N.CanStart s x.1 := by
  cases h with
  | start _ hs => exact hs
  | send _ hp hst | recv _ hp hst => rw [h0] at hp; rcases hst with h | h <;> rw [h.1] at hp <;> cases hp
  | visit _ hp _ | met _ hp _ | sub _ hp _ => rw [h0] at hp; cases hp

theorem Guard.of_act (h : N.Guard s x st) {f : M → M} (hop : N.op x = some (.act f)) : st = .done := by
  cases h with
  | start hop' _ => rw [hop] at hop'; cases hop'; rfl
  | send hop' _ _ | recv hop' _ _ | visit hop' _ _ => rw [hop] at hop'; cases hop'
  | met _ _ _ => rfl
  | sub _ _ _ => rfl

theorem Guard.of_sub (h : N.Guard s x st) {t : ι} (hop : N.op x = some (.sub t)) :
    st = .posted ∨ (st = .done ∧ ∀ j < (N.prog t).length, s.stageAt (t, j) = .done) := by
  cases h with
  | start hop' _ => rw [hop] at hop'; cases hop'; exact .inl rfl
  | send hop' _ _ | recv hop' _ _ | visit hop' _ _ | met hop' _ _ => rw [hop] at hop'; cases hop'
  | sub hop' _ hc => rw [hop] at hop'; cases hop'; exact .inr ⟨rfl, hc⟩

theorem Guard.of_sync (h : N.Guard s x st) {k : κ} (hop : N.op x = some (.sync k)) :
    st = .posted ∨ (st = .moved ∧ ∀ j < x.2, s.stageAt (x.1, j) = .done) ∨
      (st = .done ∧ s.stageAt x = .moved ∧
        ∀ y, N.op y = some (.sync k) → s.stageAt y = .moved ∨ s.stageAt y = .done) := by
  cases h with
  | start hop' _ => rw [hop] at hop'; cases hop'; exact .inl rfl
  | send hop' _ _ | recv hop' _ _ | sub hop' _ _ => rw [hop] at hop'; cases hop'
  | visit _ _ hb => exact .inr (.inl ⟨rfl, hb⟩)
  | met hop' hm hv => rw [hop] at hop'; cases hop'; exact .inr (.inr ⟨rfl, hm, hv⟩)

variable [DecidableEq ι] [DecidableEq ρ] [DecidableEq χ]

/-- **A step takes one entry up**, under its guard; a start also counts the entry as started. -/
theorem Step.guard (h : N.Step s s') : ∃ x st, N.Guard s x st ∧ s'.stageAt = update s.stageAt x st ∧
      ((s.stageAt x ≠ .idle ∧ s'.started = s.started) ∨
        (x.2 = s.started x.1 ∧ s'.started = update s.started x.1 (s.started x.1 + 1))) := by
  cases h with
  | act hop h =>
    exact ⟨_, _, .start hop h, by rw [stageAt_onMem, stageAt_start]; rfl, .inr ⟨rfl, rfl⟩⟩
  | postSend hop h =>
    exact ⟨_, _, .start hop h, by rw [stageAt_pushSend, stageAt_start]; rfl,
      .inr ⟨rfl, rfl⟩⟩
  | postRecv hop h =>
    exact ⟨_, _, .start hop h, by rw [stageAt_pushRecv, stageAt_start]; rfl,
      .inr ⟨rfl, rfl⟩⟩
  | postSync hop h | postSub hop h => exact ⟨_, _, .start hop h, stageAt_start .., .inr ⟨rfl, rfl⟩⟩
  | @read x c read hop h hm =>
    have hne : s.stageAt x ≠ .idle := by rw [h]; exact noConfusion
    exact ⟨x, _, .send hop h (.inl ⟨rfl, rfl⟩), stageAt_move (s := s.readOff x _) hne,
      .inl ⟨hne, rfl⟩⟩
  | @doneSend x c read hop h hm =>
    have hne : s.stageAt x ≠ .idle := by rw [h]; exact noConfusion
    exact ⟨x, _, .send hop h (.inr ⟨rfl, rfl⟩), stageAt_move hne, .inl ⟨hne, rfl⟩⟩
  | @deliver y x c fits store finish d hop h hm hd hfit =>
    have hne : s.stageAt y ≠ .idle := by rw [h]; exact noConfusion
    exact ⟨y, _, .recv hop h (.inl ⟨rfl, rfl⟩), stageAt_move (s := s.onMem _ _) hne,
      .inl ⟨hne, rfl⟩⟩
  | @doneRecv y c fits store finish hop h =>
    have hne : s.stageAt y ≠ .idle := by rw [h]; exact noConfusion
    exact ⟨y, _, .recv hop h (.inr ⟨rfl, rfl⟩), stageAt_move (s := s.onMem _ _) hne,
      .inl ⟨hne, rfl⟩⟩
  | @visit x k hop h hb =>
    have hne : s.stageAt x ≠ .idle := by rw [h]; exact noConfusion
    exact ⟨x, _, .visit hop h hb, stageAt_move hne, .inl ⟨hne, rfl⟩⟩
  | @doneSync x k hop h hv =>
    have hne : s.stageAt x ≠ .idle := by rw [h]; exact noConfusion
    exact ⟨x, _, .met hop h hv, stageAt_move hne, .inl ⟨hne, rfl⟩⟩
  | @doneSub x t hop h hc =>
    have hne : s.stageAt x ≠ .idle := by rw [h]; exact noConfusion
    exact ⟨x, _, .sub hop h hc, stageAt_move hne, .inl ⟨hne, rfl⟩⟩

theorem Step.height_le (h : N.Step s s') (y : ι × Nat) : (s.stageAt y).height ≤ (s'.stageAt y).height := by
  obtain ⟨x, st, hg, hst, -⟩ := h.guard
  rw [hst]
  by_cases hy : y = x
  · subst hy
    rw [update_self]
    exact hg.height_lt.le
  · exact Nat.le_of_eq (by rw [update_of_ne hy])

theorem Step.done (h : N.Step s s') (hy : s.stageAt y = .done) : s'.stageAt y = .done := by
  have := h.height_le y
  rw [hy] at this
  cases hs : s'.stageAt y <;> rw [hs] at this <;> first | rfl | exact absurd this (by decide)

theorem Final.stuck (h : N.Final s) : ¬ N.Step s s' := by
  intro hs
  obtain ⟨x, st, hg, -⟩ := hs.guard
  obtain ⟨o, hop⟩ := hg.op_eq
  have hlt := hg.height_lt
  rw [h x.1 x.2 (lt_length_of_op hop)] at hlt
  cases st <;> exact absurd hlt (by decide)

theorem Step.live (h : N.Step s s') (hy : s.stageAt y ≠ .idle) : s'.stageAt y ≠ .idle := by
  intro h0
  have := h.height_le y
  rw [h0] at this
  cases hs : s.stageAt y <;> rw [hs] at this <;> first | exact hy hs | cases this

theorem Step.visited (h : N.Step s s') (hy : s.stageAt y = .moved ∨ s.stageAt y = .done) :
    s'.stageAt y = .moved ∨ s'.stageAt y = .done := by
  have := h.height_le y
  cases hs : s'.stageAt y with
  | moved => exact .inl rfl
  | done => exact .inr rfl
  | idle | posted => rcases hy with hy | hy <;> rw [hs, hy] at this <;> exact absurd this (by decide)

/-! ## The order of a reachable state -/

/-- The order of starts and ends that a reachable state shows. -/
structure Ordered (N : Net ι ρ χ κ M δ) (s : State ι ρ χ M δ) : Prop where
  bound : ∀ t, s.started t ≤ (N.prog t).length
  live : ∀ t i, i < s.started t → s.stageAt (t, i) ≠ .idle
  cleared : ∀ t i b, i < s.started t → b < i → N.barrier (t, b) = true →
    ∀ j ≤ b, s.stageAt (t, j) = .done
  act : ∀ x f, N.op x = some (.act f) → s.stageAt x = .idle ∨ s.stageAt x = .done
  sub : ∀ x t, N.op x = some (.sub t) → s.stageAt x ≠ .moved
  visited : ∀ x k, N.op x = some (.sync k) → (s.stageAt x = .moved ∨ s.stageAt x = .done) →
    ∀ j < x.2, s.stageAt (x.1, j) = .done
  met : ∀ x k, N.op x = some (.sync k) → s.stageAt x = .done →
    ∀ y, N.op y = some (.sync k) → s.stageAt y = .moved ∨ s.stageAt y = .done
  child : ∀ x t, N.op x = some (.sub t) → s.stageAt x = .done →
    ∀ j < (N.prog t).length, s.stageAt (t, j) = .done
  woken : ∀ x, s.stageAt x ≠ .idle →
    N.IsRoot x.1 ∨ ∃ p, N.op p = some (.sub x.1) ∧ s.stageAt p ≠ .idle

omit [DecidableEq ι] [DecidableEq ρ] [DecidableEq χ] in
theorem ordered_init (N : Net ι ρ χ κ M δ) (mem : ρ → M) : N.Ordered (init mem) where
  bound _ := Nat.zero_le _
  live _ _ h := absurd h (Nat.not_lt_zero _)
  cleared _ _ _ h := absurd h (Nat.not_lt_zero _)
  act _ _ _ := .inl rfl
  sub _ _ _ := noConfusion
  visited _ _ _ h := by rcases h with h | h <;> cases h
  met _ _ _ h := noConfusion h
  child _ _ _ h := noConfusion h
  woken _ h := absurd rfl h

/-- **One step keeps the order.** -/
theorem Ordered.step (o : N.Ordered s) (h : N.Step s s') : N.Ordered s' := by
  obtain ⟨x, st, hg, hst, hstart⟩ := h.guard
  -- away from the guarded entry nothing changes; the guarded entry itself is the case to look at
  have hself : s'.stageAt x = st := by rw [hst, update_self]
  have hother : ∀ y, y ≠ x → s'.stageAt y = s.stageAt y := fun y hy => by
    rw [hst, update_of_ne hy]
  have hup := hg.height_lt
  refine ⟨?bound, ?live, ?cleared, ?act, ?sub, ?visited, ?met, ?child, ?woken⟩
  case bound =>
    intro t
    rcases hstart with ⟨-, he⟩ | ⟨hx, he⟩
    · rw [he]; exact o.bound t
    · rw [he]
      by_cases ht : t = x.1
      · subst ht
        obtain ⟨op, hop⟩ := hg.op_eq
        rw [update_self, ← hx]
        exact lt_length_of_op hop
      · rw [update_of_ne ht]; exact o.bound t
  case live =>
    intro t i hi
    by_cases hy : (t, i) = x
    · rw [hy, hself]
      intro h0
      rw [h0] at hup
      exact Nat.not_lt_zero _ hup
    · rw [hother _ hy]
      refine o.live t i ?_
      rcases hstart with ⟨-, he⟩ | ⟨hx, he⟩
      · rw [he] at hi; exact hi
      · rw [he] at hi
        by_cases ht : t = x.1
        · subst ht
          rw [update_self] at hi
          have hne : i ≠ x.2 := fun h => hy (by rw [h])
          omega
        · rwa [update_of_ne ht] at hi
  case cleared =>
    intro t i b hi hb hbar j hj
    rcases lt_or_ge i (s.started t) with hlt | hge
    · exact h.done (o.cleared t i b hlt hb hbar j hj)
    · -- the entry started by this very step: its own guard says what is cleared
      have hti : t = x.1 ∧ i = x.2 ∧ x.2 = s.started x.1 := by
        rcases hstart with ⟨-, he⟩ | ⟨hx, he⟩
        · rw [he] at hi; omega
        · rw [he] at hi
          by_cases ht : t = x.1
          · subst ht
            rw [update_self] at hi
            exact ⟨rfl, by omega, hx⟩
          · rw [update_of_ne ht] at hi; omega
      obtain ⟨rfl, rfl, hx⟩ := hti
      exact h.done ((hg.canStart (stageAt_of_le hge)).cleared b (by omega) hbar j hj)
  case act =>
    intro y f hop
    by_cases hy : y = x
    · subst hy
      exact .inr (hself.trans (hg.of_act hop))
    · rw [hother y hy]; exact o.act y f hop
  case sub =>
    intro y t hop
    by_cases hy : y = x
    · subst hy
      rw [hself]
      rcases hg.of_sub hop with h | ⟨h, -⟩ <;> rw [h] <;> exact noConfusion
    · rw [hother y hy]; exact o.sub y t hop
  case visited =>
    intro y k hop hv j hj
    by_cases hy : y = x
    · subst hy
      rw [hself] at hv
      rcases hg.of_sync hop with h1 | ⟨-, hb⟩ | ⟨-, hm, -⟩
      · rw [h1] at hv; rcases hv with hv | hv <;> cases hv
      · exact h.done (hb j hj)
      · exact h.done (o.visited y k hop (.inl hm) j hj)
    · rw [hother y hy] at hv
      exact h.done (o.visited y k hop hv j hj)
  case met =>
    intro y k hop hd z hz
    by_cases hy : y = x
    · subst hy
      rw [hself] at hd
      rcases hg.of_sync hop with h1 | ⟨h1, -⟩ | ⟨-, -, hv⟩
      · rw [h1] at hd; cases hd
      · rw [h1] at hd; cases hd
      · exact h.visited (hv z hz)
    · rw [hother y hy] at hd
      exact h.visited (o.met y k hop hd z hz)
  case child =>
    intro y t hop hd j hj
    by_cases hy : y = x
    · subst hy
      rw [hself] at hd
      rcases hg.of_sub hop with h1 | ⟨-, hc⟩
      · rw [h1] at hd; cases hd
      · exact h.done (hc j hj)
    · rw [hother y hy] at hd
      exact h.done (o.child y t hop hd j hj)
  case woken =>
    intro y hy0
    by_cases hl : s.stageAt y = .idle
    · have hy : y = x := by
        by_contra hne
        rw [hother y hne] at hy0
        exact hy0 hl
      subst hy
      rcases (hg.canStart hl).active with hr | ⟨p, hp, hst'⟩
      · exact .inl hr
      · exact .inr ⟨p, hp, h.live (by rw [hst']; exact noConfusion)⟩
    · rcases o.woken y hl with hr | ⟨p, hp, hl'⟩
      · exact .inl hr
      · exact .inr ⟨p, hp, h.live hl'⟩

/-- **Every reachable state is ordered.** -/
theorem Reach.ordered (h : N.Reach mem s) : N.Ordered s :=
  Reach.invariant (N.ordered_init mem) (fun _ _ _ o hs => o.step hs) h

/-! ## Dependence -/

/-- **`x` has to be done before `y` may start**, as the text of the net says it: over a barrier, behind
a local action, over a meeting, from a child task through the entry that stands for it, and into a
child task over all entries that stand for it. -/
inductive Dep (N : Net ι ρ χ κ M δ) : ι × Nat → ι × Nat → Prop
  | barrier {t i b j} (hi : i ≤ b) (hj : b < j) (hb : N.barrier (t, b) = true) : Dep N (t, i) (t, j)
  | act {t i j f} (hop : N.op (t, i) = some (.act f)) (hj : i < j) : Dep N (t, i) (t, j)
  | sync {t i a t' b j k} (hi : i < a) (ha : N.op (t, a) = some (.sync k))
      (hb : N.op (t', b) = some (.sync k)) (hbar : N.barrier (t', b) = true) (hj : b < j) :
      Dep N (t, i) (t', j)
  | sub {p t i y} (hop : N.op p = some (.sub t)) (hi : i < (N.prog t).length) (h : Dep N p y) :
      Dep N (t, i) y
  | wake {x p t j} (hop : N.op p = some (.sub t)) (h : ∀ q, N.op q = some (.sub t) → Dep N x q) :
      Dep N x (t, j)
  | trans {x y z} (hxy : Dep N x y) (hyz : Dep N y z) : Dep N x z

omit [DecidableEq ι] [DecidableEq ρ] [DecidableEq χ] in
theorem Ordered.dep (o : N.Ordered s) (h : N.Dep x y) (hy : s.stageAt y ≠ .idle) : s.stageAt x = .done := by
  induction h with
  | barrier hi hj hb => exact o.cleared _ _ _ (lt_started hy) hj hb _ hi
  | @act t i j f hop hj =>
    have hi : i < s.started t := hj.trans (lt_started hy)
    rcases o.act _ _ hop with h | h
    · exact absurd h (o.live _ _ hi)
    · exact h
  | sync hi ha hb hbar hj =>
    -- the meeting in front of `y` is done, so everybody has visited it, `x`'s own task included
    have hdone := o.cleared _ _ _ (lt_started hy) hj hbar _ (le_rfl)
    exact o.visited _ _ ha (o.met _ _ hb hdone _ ha) _ hi
  | sub hop hi _ ih => exact o.child _ _ hop (ih hy) _ hi
  | wake hop _ ih =>
    rcases o.woken _ hy with hroot | ⟨q, hq, hlive⟩
    · exact absurd hop (hroot _)
    · exact ih q hq hlive
  | trans _ _ ih1 ih2 =>
    refine ih1 ?_
    rw [ih2 hy]
    exact noConfusion

/-- **The law of order.** In every reachable state, when `y` was started, whatever it depends on is
done. -/
theorem Reach.dep (h : N.Reach mem s) (hd : N.Dep x y) (hy : s.stageAt y ≠ .idle) : s.stageAt x = .done :=
  h.ordered.dep hd hy

end Net

end Async
