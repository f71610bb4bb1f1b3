import Mathlib.Logic.Function.Conjugate
import OneCcl.Async.Channel

/-!
# What every run computes

Two entries are independent when what either does to the memory commutes with what the other does
and is not seen by the other's reading. A **plan** for a net names the message of every send and
receive and an order of each rank's entries, such that two entries of a rank are independent unless
the earlier one has to be done before the later one starts, or is a send that was read before the
later one does anything; and such that executing a rank's entries one after another in that order,
every receive given its message, makes every send read its message.

`Plan.mem_final` is the result: whatever the transport and the order of completion, a run that has
done everything leaves in every rank's memory what the plan's own order computes. No confluence of
the steps is used. The invariant (`Plan.Follows`) is that the memory is, at every moment, the fold of
what the entries have done so far, taken in the plan's order.
-/

namespace Async

open List Function State Stage

variable {ι ρ χ κ M δ : Type}
variable {o o' : Op ι χ κ M δ} {d d' : δ} {c : χ} {read : M → δ} {α : Type} {N : Net ι ρ χ κ M δ}
  {s s' : State ι ρ χ M δ} {st : Stage}

/-! ## Independence -/

namespace Op

/-- The changes of the memory an entry can make, each in one go. -/
def atoms : Op ι χ κ M δ → Set (M → M)
  | .act f => {f}
  | .recv _ fits store finish => {g | g = finish ∨ ∃ d, fits d = true ∧ g = store d}
  | _ => ∅

/-- A change of the memory that the entry's reading does not see. -/
def Blind : Op ι χ κ M δ → (M → M) → Prop
  | .send _ read, g => ∀ m, read (g m) = read m
  | _, _ => True

/-- Neither entry disturbs the other. -/
structure Indep (o o' : Op ι χ κ M δ) : Prop where
  commute : ∀ f ∈ o.atoms, ∀ g ∈ o'.atoms, Function.Commute f g
  blind : ∀ g ∈ o'.atoms, o.Blind g
  blind' : ∀ f ∈ o.atoms, o'.Blind f

theorem Indep.symm (h : o.Indep o') : o'.Indep o :=
  ⟨fun f hf g hg => (h.commute g hg f hf).symm, h.blind', h.blind⟩

/-- What an entry has done to the memory when it is at a stage, its message being `d`. -/
def effect : Op ι χ κ M δ → δ → Stage → M → M
  | .act f, _, .done => f
  | .recv _ _ store _, d, .moved => store d
  | .recv _ _ store finish, d, .done => finish ∘ store d
  | _, _, _ => id

/-- The message, if the entry receives one, fits it. -/
def Fits : Op ι χ κ M δ → δ → Prop
  | .recv _ fits _ _, d => fits d = true
  | _, _ => True

@[simp] theorem effect_idle (o : Op ι χ κ M δ) (d : δ) : o.effect d .idle = id := by
  cases o <;> rfl

@[simp] theorem effect_posted (o : Op ι χ κ M δ) (d : δ) : o.effect d .posted = id := by
  cases o <;> rfl

/-- What an entry does is made of its atoms: whatever is stable under composition and holds of the
atoms holds of the effect. -/
theorem effect_induction {P : (M → M) → Prop} (hid : P id) (hcomp : ∀ f g, P f → P g → P (f ∘ g)) (hfit : o.Fits d)
    (h : ∀ f ∈ o.atoms, P f) (st : Stage) : P (o.effect d st) := by
  cases o with
  | act f => cases st <;> first | exact hid | exact h f rfl
  | recv c fits store finish =>
    have hs : P (store d) := h _ (.inr ⟨d, hfit, rfl⟩)
    have hf : P finish := h _ (.inl rfl)
    cases st with
    | idle => exact hid
    | posted => exact hid
    | moved => exact hs
    | done => exact hcomp finish (store d) hf hs
  | send => exact hid
  | sync => exact hid
  | sub => exact hid

theorem Indep.commute_effect (h : o.Indep o') (hfit : o'.Fits d') {f : M → M} (hf : f ∈ o.atoms) (st : Stage) :
    Function.Commute f (o'.effect d' st) :=
  effect_induction (P := Function.Commute f) (fun _ => rfl) (fun _ _ h1 h2 => h1.comp_right h2) hfit
    (h.commute f hf) st

theorem Indep.commute_effects (h : o.Indep o') (hfit : o.Fits d) (hfit' : o'.Fits d') (st st' : Stage) :
    Function.Commute (o.effect d st) (o'.effect d' st') :=
  effect_induction (P := fun f => Function.Commute f (o'.effect d' st')) (fun _ => rfl)
    (fun _ _ h1 h2 => h1.comp_left h2) hfit (fun _ hf => h.commute_effect hfit' hf st') st

theorem Indep.blind_effect (h : (Op.send c read : Op ι χ κ M δ).Indep o') (hfit : o'.Fits d') (st : Stage) (m : M) :
    read (o'.effect d' st m) = read m :=
  effect_induction (P := fun f => ∀ m, read (f m) = read m) (fun _ => rfl)
    (fun _ _ h1 h2 m => (h1 _).trans (h2 m)) hfit h.blind st m

end Op

/-! ## Folds of effects -/

section Fold

variable {β : Type}

/-- Apply the effects of the entries in the order of the list. -/
def applyAll (e : β → M → M) (l : List β) (m : M) : M := l.foldl (fun m x => e x m) m

@[simp] theorem applyAll_cons (e : β → M → M) (x : β) (l : List β) (m : M) :
    applyAll e (x :: l) m = applyAll e l (e x m) := rfl

@[simp] theorem applyAll_append (e : β → M → M) (l l' : List β) (m : M) :
    applyAll e (l ++ l') m = applyAll e l' (applyAll e l m) := foldl_append ..

variable {e e' : β → M → M} {l : List β} {g : M → M}

theorem applyAll_of_map_eq {γ : Type} {e' : γ → M → M} {l' : List γ}
    (h : l.map e = l'.map e') (m : M) : applyAll e l m = applyAll e' l' m := by
  have apply_map : ∀ {β : Type} (e : β → M → M) (l : List β),
      applyAll e l m = (l.map e).foldl (fun m f => f m) m := fun e l => by
    rw [foldl_map]
    rfl
  rw [apply_map, apply_map, h]

theorem applyAll_congr (h : ∀ x ∈ l, e x = e' x) (m : M) : applyAll e l m = applyAll e' l m := by
  induction l generalizing m with
  | nil => rfl
  | cons x l ih =>
    rw [applyAll_cons, applyAll_cons, h x mem_cons_self,
      ih fun y hy => h y (mem_cons_of_mem _ hy)]

theorem applyAll_commute (h : ∀ x ∈ l, Function.Commute g (e x)) (m : M) : applyAll e l (g m) = g (applyAll e l m) := by
  induction l generalizing m with
  | nil => rfl
  | cons x l ih =>
    rw [applyAll_cons, applyAll_cons, ← h x mem_cons_self m,
      ih fun y hy => h y (mem_cons_of_mem _ hy)]

theorem applyAll_grow {x : β} (hx : x ∈ l) (hnodup : l.Nodup) (hself : e' x = g ∘ e x) (hother : ∀ y, y ≠ x → e' y = e y)
    (hafter : ∀ a b, l = a ++ x :: b → ∀ y ∈ b, Function.Commute g (e y)) (m : M) :
    applyAll e' l m = g (applyAll e l m) := by
  obtain ⟨a, b, rfl⟩ := append_of_mem hx
  have ha : ∀ y ∈ a, e' y = e y := fun y hy => hother y fun h => by
    subst h
    exact disjoint_of_nodup_append hnodup hy mem_cons_self
  have hb : ∀ y ∈ b, e' y = e y := fun y hy => hother y fun h => by
    subst h
    exact (nodup_cons.mp (nodup_append.mp hnodup).2.1).1 hy
  rw [applyAll_append, applyAll_append, applyAll_cons, applyAll_cons, applyAll_congr ha,
    applyAll_congr hb, hself]
  exact applyAll_commute (hafter a b rfl) _

theorem read_applyAll {read : M → α} (h : ∀ x ∈ l, ∀ m, read (e x m) = read m) (m : M) : read (applyAll e l m) = read m := by
  induction l generalizing m with
  | nil => rfl
  | cons x l ih =>
    rw [applyAll_cons, ih fun y hy => h y (mem_cons_of_mem _ hy), h x mem_cons_self]

/-- A reading sees only the part of a list it depends on: what is outside `P` commutes with what is
inside and later, and is itself not seen. -/
theorem read_filter {read : M → α} {P : β → Prop} [DecidablePred P]
    (hcomm : l.Pairwise fun x y => ¬ P x → P y → Function.Commute (e x) (e y))
    (hblind : ∀ x ∈ l, ¬ P x → ∀ m, read (e x m) = read m) (m : M) :
    read (applyAll e l m) = read (applyAll e (l.filter fun x => decide (P x)) m) := by
  induction l generalizing m with
  | nil => rfl
  | cons x l ih =>
    obtain ⟨hx, hl⟩ := pairwise_cons.mp hcomm
    have ih := ih hl fun y hy => hblind y (mem_cons_of_mem _ hy)
    by_cases hP : P x
    · rw [filter_cons_of_pos (p := fun x => decide (P x)) (decide_eq_true hP), applyAll_cons,
        applyAll_cons, ih]
    · rw [filter_cons_of_neg (p := fun x => decide (P x)) (by simpa using hP), applyAll_cons, ih,
        applyAll_commute, hblind x mem_cons_self hP]
      intro y hy
      obtain ⟨hyl, hPy⟩ := mem_filter.mp hy
      exact hx y hyl hP (of_decide_eq_true hPy)

end Fold

/-! ## Plans -/

namespace Net

/-- Two entries of a net that do not disturb each other. -/
def Indep (N : Net ι ρ χ κ M δ) (x y : ι × Nat) : Prop :=
  ∀ o o', N.op x = some o → N.op y = some o' → o.Indep o'

variable {x y : ι × Nat}

/-- What an entry has done at a stage, its message being `d`. -/
def effect (N : Net ι ρ χ κ M δ) (d : δ) (x : ι × Nat) (st : Stage) : M → M :=
  (N.op x).elim id fun o => o.effect d st

theorem effect_of_op (h : N.op x = some o) (d : δ) (st : Stage) : N.effect d x st = o.effect d st := by
  rw [effect, h]
  rfl

theorem effect_of_send (h : ∃ c read, N.op x = some (.send c read)) (d : δ) (st : Stage) : N.effect d x st = id := by
  obtain ⟨c, read, hop⟩ := h
  rw [effect_of_op hop]
  cases st <;> rfl

@[simp] theorem effect_idle (N : Net ι ρ χ κ M δ) (d : δ) (x : ι × Nat) : N.effect d x .idle = id := by
  unfold effect
  cases N.op x with
  | none => rfl
  | some o => exact o.effect_idle d

@[simp] theorem effect_posted (N : Net ι ρ χ κ M δ) (d : δ) (x : ι × Nat) : N.effect d x .posted = id := by
  unfold effect
  cases N.op x with
  | none => rfl
  | some o => exact o.effect_posted d

variable [DecidableEq ι] [DecidableEq ρ] [DecidableEq χ]

/-- The first entry is a send, and the transport has read it whenever it has delivered the second. -/
structure ReadFirst (N : Net ι ρ χ κ M δ) (mem : ρ → M) (x y : ι × Nat) : Prop where
  send : ∃ c read, N.op x = some (.send c read)
  first : ∀ s, N.Reach mem s → Passed s y → Passed s x

/-- The entries of a rank that one behind the other may be executed in this order: the second waits for the first, they
do not disturb each other, or the first is read before the second comes. -/
abbrev Settled (N : Net ι ρ χ κ M δ) (mem : ρ → M) (x y : ι × Nat) : Prop :=
  N.Dep x y ∨ N.Indep x y ∨ N.ReadFirst mem x y

/-- **An answer**: a send, its receive, then a send back and its receive. What is answered was read. -/
theorem readFirst_of_answer (W : N.Wiring) (mem : ρ → M) {z x' : ι × Nat} {c' : χ} {k k' : Nat}
    (hx : (W.sends c)[k]? = some x) (hz : (W.recvs c)[k]? = some z) (hdep : N.Dep z x')
    (hx' : (W.sends c')[k']? = some x') (hy : (W.recvs c')[k']? = some y) : N.ReadFirst mem x y where
  send := by
    obtain ⟨read, hop⟩ := W.mem_sends.mp (mem_of_getElem? hx)
    exact ⟨c, read, hop⟩
  first s hr hp := hr.passed_send W hx hz (.of_done (hr.dep hdep (hr.passed_send W hx' hy hp).live))

/-- A plan: the message of every entry that has one, and an order of each rank's entries in which
executing them one by one gives every send its message. -/
structure Plan (N : Net ι ρ χ κ M δ) (mem : ρ → M) extends N.Wiring where
  msg : ι × Nat → δ
  order : ρ → List (ι × Nat)
  mem_order : ∀ r x, x ∈ order r ↔ N.rank x.1 = r ∧ x.2 < (N.prog x.1).length
  nodup : ∀ r, (order r).Nodup
  fits : ∀ x o, N.op x = some o → o.Fits (msg x)
  paired : ∀ c, (toWiring.sends c).map msg = (toWiring.recvs c).map msg
  apart : ∀ r, (order r).Pairwise fun x y => N.Dep x y ∨ N.Indep x y ∨ N.ReadFirst mem x y
  reads : ∀ x c read, N.op x = some (.send c read) → ∀ l l', order (N.rank x.1) = l ++ x :: l' →
    read (applyAll (fun y => N.effect (msg y) y .done) l (mem (N.rank x.1))) = msg x

namespace Plan

variable {N : Net ι ρ χ κ M δ} {mem : ρ → M} (P : N.Plan mem)

/-- A rank's memory when its entries are at the given stages. -/
def memAt (stage : ι × Nat → Stage) (r : ρ) : M :=
  applyAll (fun x => N.effect (P.msg x) x (stage x)) (P.order r) (mem r)

/-- A rank's memory when everything is done. -/
def result (r : ρ) : M := P.memAt (fun _ => .done) r

/-- The state is the plan's own, at the stages reached. -/
structure Follows (s : State ι ρ χ M δ) : Prop where
  mem : ∀ r, s.mem r = P.memAt s.stageAt r
  wire : ∀ x d, s.wire x.1 x.2 = some d → d = P.msg x

/-- An entry of a rank that is not done and a later one that was started are independent, or the first is a send
that is read first. -/
theorem indep_after (o : N.Ordered s) {r : ρ} {a b : List (ι × Nat)} (h : P.order r = a ++ x :: b)
    (hy : y ∈ b) (hx : s.stageAt x ≠ .done) (hy' : s.stageAt y ≠ .idle) : N.Indep x y ∨ N.ReadFirst mem x y := by
  have hp := P.apart r
  rw [h] at hp
  exact ((pairwise_cons.mp (pairwise_append.mp hp).2.1).1 y hy).resolve_left
    fun hd => hx (o.dep hd hy')

variable {g : M → M}

theorem commute_effect (h : N.Indep x y) (hop : N.op x = some o) (hg : g ∈ o.atoms)
    (st : Stage) : Function.Commute g (N.effect (P.msg y) y st) := by
  cases hy : N.op y with
  | none => rw [effect, hy]; exact fun _ => rfl
  | some o' =>
    rw [effect_of_op hy]
    exact (h o o' hop hy).commute_effect (P.fits y o' hy) hg st

/-- **One move of one entry**: the memory of its rank changes by what the entry does there. -/
theorem memAt_update (ord : N.Ordered s) (hop : N.op x = some o) (hg : g = id ∨ g ∈ o.atoms)
    (hx : s.stageAt x ≠ .done) (hself : o.effect (P.msg x) st = g ∘ o.effect (P.msg x) (s.stageAt x)) (r : ρ) :
    P.memAt (update s.stageAt x st) r =
      if r = N.rank x.1 then g (P.memAt s.stageAt r) else P.memAt s.stageAt r := by
  by_cases hr : r = N.rank x.1
  · rw [if_pos hr]
    refine applyAll_grow ((P.mem_order r x).mpr ⟨hr.symm, lt_length_of_op hop⟩) (P.nodup r) ?_ ?_ ?_ _
    · rw [update_self, effect_of_op hop, effect_of_op hop, hself]
    · intro y hy
      rw [update_of_ne hy]
    · -- what stands later in the order and was started is independent of `x`, which is not done
      intro a b hab y hy
      rcases hg with rfl | hg
      · exact fun _ => rfl
      · by_cases hi : s.stageAt y = .idle
        · rw [hi, effect_idle]
          exact fun _ => rfl
        · rcases P.indep_after ord hab hy hx hi with hind | hrf
          · exact P.commute_effect hind hop hg _
          · -- a send changes nothing
            obtain ⟨c, read, hsend⟩ := hrf.send
            rw [hop] at hsend
            cases hsend
            exact False.elim hg
  · rw [if_neg hr]
    refine applyAll_congr (fun y hy => ?_) _
    have hyx : y ≠ x := fun h => hr (by rw [← h]; exact ((P.mem_order r y).mp hy).1.symm)
    rw [update_of_ne hyx]

theorem commute_effects (h : N.Indep x y) (st st' : Stage) :
    Function.Commute (N.effect (P.msg x) x st) (N.effect (P.msg y) y st') := by
  cases hx : N.op x with
  | none => rw [effect, hx]; exact fun _ => rfl
  | some o =>
    cases hy : N.op y with
    | none => rw [effect, effect, hy]; exact fun _ => rfl
    | some o' =>
      rw [effect_of_op hx, effect_of_op hy]
      exact (h o o' hx hy).commute_effects (P.fits x o hx) (P.fits y o' hy) st st'

theorem blind_effect (h : N.Indep x y) (hop : N.op x = some (.send c read)) (st : Stage) (m : M) :
    read (N.effect (P.msg y) y st m) = read m := by
  cases hy : N.op y with
  | none => rw [effect, hy]; rfl
  | some o' =>
    rw [effect_of_op hy]
    exact (h _ o' hop hy).blind_effect (P.fits y o' hy) st m

theorem read_front (hop : N.op x = some (.send c read)) {l l' : List (ι × Nat)}
    (hl : P.order (N.rank x.1) = l ++ x :: l') (stage : ι × Nat → Stage) (m : M) [DecidablePred (N.Dep · x)] :
    read (applyAll (fun y => N.effect (P.msg y) y (stage y)) l m) =
      read (applyAll (fun y => N.effect (P.msg y) y (stage y)) (l.filter fun y => decide (N.Dep y x)) m) := by
  have hp := P.apart (N.rank x.1)
  rw [hl] at hp
  obtain ⟨hll, -, hlx⟩ := pairwise_append.mp hp
  refine read_filter (hll.imp_of_mem fun {y z} _ _ hyz hy hz => ?_) (fun y hy hnd m => ?_) m
  · rcases hyz with hd | hi | hrf
    · exact absurd (.trans hd hz) hy
    · exact P.commute_effects hi _ _
    · rw [effect_of_send hrf.send]
      exact fun _ => rfl
  · rcases hlx y hy x mem_cons_self with hd | hi | hrf
    · exact absurd hd hnd
    · exact P.blind_effect (fun o o' ho ho' => (hi o' o ho' ho).symm) hop _ m
    · rw [effect_of_send hrf.send, id]

/-- **A send reads its message**, whenever the transport reads it. -/
theorem read_memAt (hr : N.Reach mem s) (hop : N.op x = some (.send c read))
    (hst : s.stageAt x = .posted) : read (P.memAt s.stageAt (N.rank x.1)) = P.msg x := by
  classical
  have ord := hr.ordered
  obtain ⟨l, l', hl⟩ := append_of_mem ((P.mem_order _ x).mpr ⟨rfl, lt_length_of_op hop⟩)
  have hpass : ¬ Passed s x := by
    intro hp
    rcases hp with hp | hp <;> rw [hst] at hp <;> cases hp
  -- what stands behind the send was not started, is not seen, or has not done anything
  have hback : ∀ y ∈ l', ∀ m, read (N.effect (P.msg y) y (s.stageAt y) m) = read m := by
    intro y hy m
    by_cases hi : s.stageAt y = .idle
    · rw [hi, effect_idle, id]
    · rcases P.indep_after ord hl hy (fun hd => hpass (.of_done hd)) hi with hind | hrf
      · exact P.blind_effect hind hop _ m
      · have hp : ¬ Passed s y := fun hp => hpass (hrf.first s hr hp)
        cases hsty : s.stageAt y with
        | idle => exact absurd hsty hi
        | posted => rw [effect_posted, id]
        | moved => exact absurd (.inl hsty) hp
        | done => exact absurd (.inr hsty) hp
  rw [memAt, hl, applyAll_append, applyAll_cons, read_applyAll hback, effect_of_op hop, hst,
    Op.effect_posted, id, P.read_front hop hl, ← P.reads x c read hop l l' hl,
    P.read_front hop hl (fun _ => .done)]
  -- what the send depends on is done, since the send was started
  refine congrArg read (applyAll_congr (fun y hy => ?_) _)
  have hd := of_decide_eq_true (mem_filter.mp hy).2
  rw [ord.dep hd (by rw [hst]; exact noConfusion)]

theorem Follows.mem_of_update (f : P.Follows s) (ord : N.Ordered s) (hop : N.op x = some o)
    (hg : g = id ∨ g ∈ o.atoms) (hx : s.stageAt x ≠ .done)
    (hself : o.effect (P.msg x) st = g ∘ o.effect (P.msg x) (s.stageAt x)) (hstage : s'.stageAt = update s.stageAt x st)
    (hmem : s'.mem = update s.mem (N.rank x.1) (g (s.mem (N.rank x.1)))) (r : ρ) : s'.mem r = P.memAt s'.stageAt r := by
  rw [hstage, P.memAt_update ord hop hg hx hself, hmem]
  by_cases hr : r = N.rank x.1
  · subst hr
    rw [update_self, if_pos rfl, f.mem]
  · rw [update_of_ne hr, if_neg hr, f.mem]

theorem follows_init : P.Follows (init mem) := by
  refine ⟨fun r => ?_, fun x d h => by cases h⟩
  have h : ∀ (l : List (ι × Nat)) (m : M),
      applyAll (fun x => N.effect (P.msg x) x ((init mem : State ι ρ χ M δ).stageAt x)) l m = m := by
    intro l m
    induction l with
    | nil => rfl
    | cons x l ih => rw [applyAll_cons, stageAt_init, effect_idle, id, ih]
  exact (h _ _).symm

theorem Follows.silent (f : P.Follows s) (ord : N.Ordered s) (hop : N.op x = some o)
    (hx : s.stageAt x ≠ .done) (hself : o.effect (P.msg x) st = o.effect (P.msg x) (s.stageAt x))
    (hstage : s'.stageAt = update s.stageAt x st) (hmem : s'.mem = s.mem) (hwire : s'.wire = s.wire) : P.Follows s' := by
  refine ⟨f.mem_of_update P ord hop (.inl rfl) hx hself hstage ?_, by rw [hwire]; exact f.wire⟩
  rw [hmem]
  exact (update_eq_self ..).symm

/-- Every step follows the plan. -/
theorem Follows.step (f : P.Follows s) (hr : N.Reach mem s) (h : N.Step s s') : P.Follows s' := by
  have ord := hr.ordered
  have posted := hr.posted P.toWiring
  have idle (t) : s.stageAt (t, s.started t) = .idle := stageAt_of_le (le_rfl)
  have ne {x} {st st' : Stage} (h : s.stageAt x = st) (hne : st ≠ st') : s.stageAt x ≠ st' := h ▸ hne
  have post {t o} (hop : N.op (t, s.started t) = some o) {s' : State ι ρ χ M δ}
      (hstage : s'.stageAt = (s.start t .posted).stageAt) (hmem : s'.mem = s.mem)
      (hwire : s'.wire = s.wire) : P.Follows s' := by
    refine f.silent P ord hop (ne (idle t) noConfusion) ?_
      (hstage.trans (stageAt_start s t .posted)) hmem hwire
    rw [idle, Op.effect_idle, Op.effect_posted]
  -- a send, a meeting and a child do nothing to the memory at any stage
  have move {x o st0 st} (hop : N.op x = some o) (hst : s.stageAt x = st0) (h0 : st0 ≠ .idle)
      (h3 : st0 ≠ .done) (hself : o.effect (P.msg x) st = o.effect (P.msg x) st0) :
      P.Follows (s.move x st) :=
    f.silent P ord hop (ne hst h3) (by rw [hst, hself]) (stageAt_move (ne hst h0)) rfl rfl
  cases h with
  | @act t g hop _ =>
    refine ⟨f.mem_of_update P ord hop (.inr rfl) (ne (idle t) noConfusion) ?_
      (stageAt_start s t .done) rfl, f.wire⟩
    rw [idle, Op.effect_idle]
    rfl
  | postSend hop _ | postRecv hop _ | postSync hop _ | postSub hop _ => exact post hop rfl rfl rfl
  | @read x c rd hop hst _ =>
    refine ⟨f.mem_of_update P ord hop (.inl rfl) (ne hst noConfusion) rfl
      (stageAt_move (ne hst noConfusion)) (update_eq_self ..).symm, fun y d hy => ?_⟩
    -- the one place where a message comes into being
    rcases wire_readOff hy with ⟨rfl, rfl⟩ | hy
    · rw [f.mem]
      exact P.read_memAt hr hop hst
    · exact f.wire y d hy
  | doneSend hop hst _ | visit hop hst _ | doneSync hop hst _ | doneSub hop hst _ =>
    exact move hop hst noConfusion noConfusion rfl
  | @deliver y x c fits store finish d hop hst hm hd hfit =>
    have hmsg : d = P.msg y := (f.wire x d hd).trans (posted.msg_eq ord (P.paired c) hm)
    subst hmsg
    refine ⟨f.mem_of_update P ord hop (.inr (.inr ⟨_, hfit, rfl⟩)) (ne hst noConfusion) ?_
      (stageAt_move (ne hst noConfusion)) rfl, f.wire⟩
    rw [hst, Op.effect_posted]
    rfl
  | doneRecv hop hst =>
    refine ⟨f.mem_of_update P ord hop (.inr (.inl rfl)) (ne hst noConfusion) ?_
      (stageAt_move (ne hst noConfusion)) rfl, f.wire⟩
    rw [hst]
    rfl

/-- **Every run keeps to the plan.** -/
theorem follows (h : N.Reach mem s) : P.Follows s :=
  Reach.invariant P.follows_init (fun _ _ hr f hs => f.step P hr hs) h

/-- **A run that has done everything leaves the plan's result**, on every rank. -/
theorem mem_final (h : N.Reach mem s) (hf : N.Final s) (r : ρ) : s.mem r = P.result r := by
  rw [(P.follows h).mem r]
  refine applyAll_congr (fun x hx => ?_) _
  rw [hf x.1 x.2 ((P.mem_order r x).mp hx).2]

end Plan

end Net

end Async
