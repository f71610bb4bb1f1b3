import Mathlib.Data.List.Nodup
import OneCcl.Async.Order

/-!
# What is posted on a channel

When every channel has one task that sends on it and one that receives on it, what is posted on the
channel does not depend on the run: it is the part of the sender's (the receiver's) text that was
started. `Reach.posted` says so, and `Posted.msg_eq` draws the consequence used later: a labelling of
the entries that agrees along both texts of every channel agrees on whatever the run pairs.
-/

namespace Async

open List Function State Stage

variable {ι ρ χ κ M δ : Type}
variable {β : Type} {k k' : Nat} {N : Net ι ρ χ κ M δ} {p : Op ι χ κ M δ → Bool} {t : ι} {x y : ι × Nat} {c : χ}
  {s s' : State ι ρ χ M δ} {mem : ρ → M}

def Op.sendsOn [DecidableEq χ] (c : χ) : Op ι χ κ M δ → Bool
  | .send c' _ => c' = c
  | _ => false

def Op.recvsOn [DecidableEq χ] (c : χ) : Op ι χ κ M δ → Bool
  | .recv c' _ _ _ => c' = c
  | _ => false

theorem getElem?_of_initial {l l' : List β} (h : l <+: l') {z : β} (hz : l[k]? = some z) : l'[k]? = some z := by
  obtain ⟨l'', rfl⟩ := h
  rw [List.getElem?_append_left (lt_of_get hz), hz]

namespace Net

/-- The first `k` entries of a task, those that satisfy `p`. -/
def picked (N : Net ι ρ χ κ M δ) (p : Op ι χ κ M δ → Bool) (t : ι) (k : Nat) : List (ι × Nat) :=
  ((range k).filter fun i => (N.op (t, i)).any p).map (Prod.mk t)

theorem picked_succ (N : Net ι ρ χ κ M δ) (p : Op ι χ κ M δ → Bool) (t : ι) (k : Nat) :
    N.picked p t (k + 1) = N.picked p t k ++ if (N.op (t, k)).any p then [(t, k)] else [] := by
  unfold picked
  rw [range_succ, filter_append, map_append]
  congr 1
  by_cases h : (N.op (t, k)).any p = true
  · simp only [filter_cons, h, filter_nil, if_true, map_cons, map_nil]
  · simp only [filter_cons, h, filter_nil, if_false, map_nil, Bool.false_eq_true]

theorem mem_picked : x ∈ N.picked p t k ↔ x.1 = t ∧ x.2 < k ∧ ∃ o, N.op x = some o ∧ p o = true := by
  obtain ⟨t', i⟩ := x
  simp only [picked, mem_map, mem_filter, mem_range, Option.any_eq_true, Prod.mk.injEq]
  constructor
  · rintro ⟨j, ⟨hj, o, ho, hp⟩, rfl, rfl⟩
    exact ⟨rfl, hj, o, ho, hp⟩
  · rintro ⟨rfl, hi, o, ho, hp⟩
    exact ⟨i, ⟨hi, o, ho, hp⟩, rfl, rfl⟩

theorem picked_nodup (N : Net ι ρ χ κ M δ) (p : Op ι χ κ M δ → Bool) (t : ι) (k : Nat) : (N.picked p t k).Nodup :=
  (nodup_range.filter _).map fun _ _ h => (Prod.mk.inj h).2

theorem picked_split (N : Net ι ρ χ κ M δ) (p : Op ι χ κ M δ → Bool) (t : ι) (h : k ≤ k') :
    ∃ l, N.picked p t k' = N.picked p t k ++ l ∧ ∀ x ∈ l, k ≤ x.2 := by
  induction h with
  | refl => exact ⟨[], (append_nil _).symm, forall_mem_nil _⟩
  | @step k' hk ih =>
    obtain ⟨l, hl, hx⟩ := ih
    refine ⟨l ++ if (N.op (t, k')).any p then [(t, k')] else [], ?_, fun x hx' => ?_⟩
    · rw [picked_succ, hl, append_assoc]
    · rcases mem_append.mp hx' with h | h
      · exact hx x h
      · split at h
        · rw [mem_singleton.mp h]
          exact hk
        · cases h

theorem picked_prefix (N : Net ι ρ χ κ M δ) (p : Op ι χ κ M δ → Bool) (t : ι) (h : k ≤ k') :
    N.picked p t k <+: N.picked p t k' := by
  obtain ⟨l, hl, -⟩ := N.picked_split p t h
  exact ⟨l, hl.symm⟩

theorem picked_getElem? {i : Nat} (h : k ≤ k') (hx : (N.picked p t k')[i]? = some x) (hk : x.2 < k) :
    (N.picked p t k)[i]? = some x := by
  obtain ⟨l, hl, hlate⟩ := N.picked_split p t h
  rw [hl] at hx
  rcases lt_or_ge i (N.picked p t k).length with hi | hi
  · rwa [getElem?_append_left hi] at hx
  · rw [getElem?_append_right hi] at hx
    exact absurd (hlate x (mem_of_getElem? hx)) hk.not_ge

/-- One side of a channel: appending the started entry keeps the posted list equal to the started
part of the text, provided only the owner of the channel has entries for it. -/
theorem picked_start [DecidableEq ι] {u : ι} {o : Op ι χ κ M δ} {started : ι → Nat} {l : List (ι × Nat)}
    (hop : N.op (t, started t) = some o) (hown : p o = true → t = u) (hl : l = N.picked p u (started u)) :
    (l ++ if p o then [(t, started t)] else []) =
      N.picked p u (update started t (started t + 1) u) := by
  by_cases htu : u = t
  · subst htu
    rw [update_self, picked_succ, hop, hl]
    rfl
  · rw [update_of_ne htu, hl]
    have hp : ¬ p o = true := fun hp => htu (hown hp).symm
    rw [if_neg hp, append_nil]

/-- Who sends and who receives on each channel. -/
structure Wiring (N : Net ι ρ χ κ M δ) where
  sender : χ → ι
  receiver : χ → ι
  sender_eq : ∀ x c read, N.op x = some (.send c read) → x.1 = sender c
  receiver_eq : ∀ x c fits store finish, N.op x = some (.recv c fits store finish) → x.1 = receiver c

namespace Wiring

variable [DecidableEq χ] {N : Net ι ρ χ κ M δ} (W : N.Wiring)

/-- All sends on a channel, in posting order. -/
def sends (c : χ) : List (ι × Nat) :=
  N.picked (Op.sendsOn c) (W.sender c) (N.prog (W.sender c)).length

/-- All receives on a channel, in posting order. -/
def recvs (c : χ) : List (ι × Nat) :=
  N.picked (Op.recvsOn c) (W.receiver c) (N.prog (W.receiver c)).length

theorem mem_sends : x ∈ W.sends c ↔ ∃ read, N.op x = some (.send c read) := by
  rw [sends, mem_picked]
  constructor
  · rintro ⟨-, -, o, ho, hp⟩
    cases o with
    | send c' read =>
      obtain rfl : c' = c := of_decide_eq_true hp
      exact ⟨read, ho⟩
    | _ => cases hp
  · rintro ⟨read, ho⟩
    have hx := W.sender_eq x c read ho
    exact ⟨hx, hx ▸ lt_length_of_op ho, _, ho, decide_eq_true rfl⟩

theorem mem_recvs : x ∈ W.recvs c ↔ ∃ fits store finish, N.op x = some (.recv c fits store finish) := by
  rw [recvs, mem_picked]
  constructor
  · rintro ⟨-, -, o, ho, hp⟩
    cases o with
    | recv c' fits store finish =>
      obtain rfl : c' = c := of_decide_eq_true hp
      exact ⟨fits, store, finish, ho⟩
    | _ => cases hp
  · rintro ⟨fits, store, finish, ho⟩
    have hx := W.receiver_eq x c fits store finish ho
    exact ⟨hx, hx ▸ lt_length_of_op ho, _, ho, decide_eq_true rfl⟩

/-- What is posted on every channel is what its two tasks have started. -/
structure Posted (s : State ι ρ χ M δ) : Prop where
  sends : ∀ c, s.sends c = N.picked (Op.sendsOn c) (W.sender c) (s.started (W.sender c))
  recvs : ∀ c, s.recvs c = N.picked (Op.recvsOn c) (W.receiver c) (s.started (W.receiver c))

end Wiring

namespace Wiring.Posted

variable [DecidableEq χ] {N : Net ι ρ χ κ M δ} {W : N.Wiring} {s : State ι ρ χ M δ}

theorem sends_prefix (o : W.Posted s) (b : N.Ordered s) (c : χ) : s.sends c <+: W.sends c := by
  rw [o.sends c]
  exact N.picked_prefix _ _ (b.bound _)

theorem recvs_prefix (o : W.Posted s) (b : N.Ordered s) (c : χ) : s.recvs c <+: W.recvs c := by
  rw [o.recvs c]
  exact N.picked_prefix _ _ (b.bound _)

theorem matched_at (o : W.Posted s) (b : N.Ordered s) (h : Matched s c x y) :
    ∃ k : Nat, (W.sends c)[k]? = some x ∧ (W.recvs c)[k]? = some y := by
  obtain ⟨k, hx, hy⟩ := h
  exact ⟨k, getElem?_of_initial (o.sends_prefix b c) hx, getElem?_of_initial (o.recvs_prefix b c) hy⟩

theorem matched_of_started (o : W.Posted s) (b : N.Ordered s) (hx : (W.sends c)[k]? = some x)
    (hy : (W.recvs c)[k]? = some y) (hx' : s.stageAt x ≠ .idle) (hy' : s.stageAt y ≠ .idle) : Matched s c x y := by
  have h1 := (mem_picked.mp (mem_of_getElem? hx)).1
  have h2 := (mem_picked.mp (mem_of_getElem? hy)).1
  refine ⟨k, ?_, ?_⟩
  · rw [o.sends c]
    exact picked_getElem? (b.bound _) hx (h1 ▸ lt_started hx')
  · rw [o.recvs c]
    exact picked_getElem? (b.bound _) hy (h2 ▸ lt_started hy')

theorem msg_eq (o : W.Posted s) (b : N.Ordered s) {msg : ι × Nat → β}
    (hmsg : (W.sends c).map msg = (W.recvs c).map msg) (h : Matched s c x y) : msg x = msg y := by
  obtain ⟨k, hx, hy⟩ := o.matched_at b h
  have hk := congrArg (·[k]?) hmsg
  simpa only [getElem?_map, hx, hy, Option.map_some, Option.some.injEq] using hk

end Wiring.Posted

section

variable [DecidableEq ι] [DecidableEq ρ] [DecidableEq χ]

/-- What a step does to the channels: a start posts the entry on its channel, if it has one; no
other step posts. -/
theorem Step.posts (h : N.Step s s') : (s'.started = s.started ∧ s'.sends = s.sends ∧ s'.recvs = s.recvs) ∨
    ∃ t o, N.op (t, s.started t) = some o ∧
      s'.started = update s.started t (s.started t + 1) ∧
      (∀ c, s'.sends c = s.sends c ++ if o.sendsOn c then [(t, s.started t)] else []) ∧
      (∀ c, s'.recvs c = s.recvs c ++ if o.recvsOn c then [(t, s.started t)] else []) := by
  have same : ∀ (f : χ → List (ι × Nat)) (c : χ), f c = f c ++ if false = true then [] else [] := by simp
  have push : ∀ (f : χ → List (ι × Nat)) (c c' : χ) (x : ι × Nat),
      update f c' (f c' ++ [x]) c = f c ++ if decide (c' = c) = true then [x] else [] := by
    intro f c c' x
    by_cases hc : c' = c
    · subst hc; simp
    · rw [update_of_ne (Ne.symm hc)]; simp [hc]
  cases h with
  | act hop _ | postSync hop _ | postSub hop _ => exact .inr ⟨_, _, hop, rfl, same _, same _⟩
  | postSend hop _ => exact .inr ⟨_, _, hop, rfl, fun c => push _ c _ _, same _⟩
  | postRecv hop _ => exact .inr ⟨_, _, hop, rfl, same _, fun c => push _ c _ _⟩
  | read | doneSend | deliver | doneRecv | visit | doneSync | doneSub => exact .inl ⟨rfl, rfl, rfl⟩

/-- Every step posts in the order of the wiring. -/
theorem Wiring.Posted.step {W : N.Wiring} (o : W.Posted s) (h : N.Step s s') : W.Posted s' := by
  rcases h.posts with ⟨h1, h2, h3⟩ | ⟨t, op, hop, h1, h2, h3⟩
  · exact ⟨by rw [h1, h2]; exact o.sends, by rw [h1, h3]; exact o.recvs⟩
  · constructor
    · intro c
      rw [h1, h2 c]
      refine picked_start hop (fun hp => ?_) (o.sends c)
      cases op with
      | send c' read =>
        obtain rfl : c' = c := of_decide_eq_true hp
        exact W.sender_eq _ _ _ hop
      | _ => cases hp
    · intro c
      rw [h1, h3 c]
      refine picked_start hop (fun hp => ?_) (o.recvs c)
      cases op with
      | recv c' fits store finish =>
        obtain rfl : c' = c := of_decide_eq_true hp
        exact W.receiver_eq _ _ _ _ _ hop
      | _ => cases hp

/-- **What is posted does not depend on the run.** -/
theorem Reach.posted (W : N.Wiring) (h : N.Reach mem s) : W.Posted s :=
  Reach.invariant ⟨fun _ => rfl, fun _ => rfl⟩ (fun _ _ _ o hs => o.step hs) h

end

/-! ## What was delivered was sent -/

/-- The transport or the meeting is through with the entry. -/
def Passed (s : State ι ρ χ M δ) (x : ι × Nat) : Prop := s.stageAt x = .moved ∨ s.stageAt x = .done

theorem Passed.of_done (h : s.stageAt x = .done) : Passed s x := .inr h

theorem Passed.live (h : Passed s x) : s.stageAt x ≠ .idle := by
  rcases h with h | h <;> rw [h] <;> exact noConfusion

/-- A step that brings one entry up and leaves the wire alone delivers nothing, unless it takes a posted receive
further. -/
theorem passed_of_update [DecidableEq ι] {z : ι × Nat} {st : Stage} (hst : s'.stageAt = update s.stageAt z st)
    (hself : y = z → st = .posted ∨ s.stageAt y = .moved) (hp : Passed s' y) : Passed s y := by
  unfold Passed at hp
  rw [hst] at hp
  by_cases hyz : y = z
  · rcases hself hyz with rfl | hm
    · rw [hyz, update_self] at hp
      rcases hp with hp | hp <;> cases hp
    · exact .inl hm
  · rwa [update_of_ne hyz] at hp

variable [DecidableEq ι] [DecidableEq ρ] [DecidableEq χ]

/-- What has passed stays so. -/
theorem Passed.step (h : Passed s x) (hs : N.Step s s') : Passed s' x := hs.visited h

/-- A pair is matched for good. -/
theorem Matched.step (h : Matched s c x y) (hs : N.Step s s') : Matched s' c x y := by
  obtain ⟨k, hx, hy⟩ := h
  rcases hs.posts with ⟨-, h2, h3⟩ | ⟨t, o, -, -, h2, h3⟩
  · exact ⟨k, by rw [h2]; exact hx, by rw [h3]; exact hy⟩
  · exact ⟨k, getElem?_of_initial ⟨_, (h2 c).symm⟩ hx, getElem?_of_initial ⟨_, (h3 c).symm⟩ hy⟩

/-- **What a step does to the wire and to a receive**: the transport puts on the wire what it reads, and it
delivers what is on the wire of the send the receive is paired with. -/
theorem Step.moves (h : N.Step s s') : (∀ x, s'.wire x.1 x.2 = s.wire x.1 x.2 ∨ Passed s' x) ∧
    ∀ y c fits store finish, N.op y = some (.recv c fits store finish) → Passed s' y →
      Passed s y ∨ ∃ x d, Matched s c x y ∧ s.wire x.1 x.2 = some d := by
  have quiet : ∀ {s' : State ι ρ χ M δ} {z : ι × Nat} {st : Stage}, s'.wire = s.wire →
      s'.stageAt = update s.stageAt z st →
      (∀ y c fits store finish, N.op y = some (.recv c fits store finish) → y = z →
        st = .posted ∨ s.stageAt y = .moved) →
      (∀ x : ι × Nat, s'.wire x.1 x.2 = s.wire x.1 x.2 ∨ Passed s' x) ∧
      ∀ y c fits store finish, N.op y = some (.recv c fits store finish) → Passed s' y →
        Passed s y ∨ ∃ x d, Matched s c x y ∧ s.wire x.1 x.2 = some d := by
    intro s' z st hw hst hself
    exact ⟨fun x => .inl (by rw [hw]), fun y c fits store finish hy hp =>
      .inl (passed_of_update hst (hself y c fits store finish hy) hp)⟩
  have clash : ∀ {z o st}, N.op z = some o → (∀ c fits store finish, o ≠ .recv c fits store finish) →
      ∀ y c fits store finish, N.op y = some (.recv c fits store finish) → y = z →
        st = posted ∨ s.stageAt y = .moved := by
    rintro z o st hz ho y c fits store finish hy rfl
    rw [hy] at hz
    exact absurd (Option.some.inj hz).symm (ho c fits store finish)
  have moved : ∀ {y st st0}, s.stageAt y = st0 → st0 ≠ .idle →
      (s.move y st).stageAt = update s.stageAt y st := fun h h0 => stageAt_move (h ▸ h0)
  cases h with
  | act hop _ => exact quiet rfl (stageAt_start ..) (clash hop (by intros; nofun))
  | postSend _ _ | postRecv _ _ | postSync _ _ | postSub _ _ =>
    exact quiet rfl (stageAt_start ..) fun _ _ _ _ _ _ _ => .inl rfl
  | @read z c rd hop hst _ =>
    have hne : (s.readOff z (rd (s.mem (N.rank z.1)))).stageAt z ≠ .idle := hst ▸ noConfusion
    refine ⟨fun x => ?_, fun y c fits store finish hy hp => .inl (passed_of_update (stageAt_move hne)
      (clash hop (by intros; nofun) y c fits store finish hy) hp)⟩
    by_cases hxz : x = z
    · subst hxz
      refine .inr (.inl ?_)
      rw [stageAt_move hne, update_self]
    · exact .inl (wire_readOff_of_ne hxz rfl)
  | doneSend _ hst _ | doneRecv _ hst => exact quiet rfl (moved hst noConfusion) fun _ _ _ _ _ _ hz => .inr (hz ▸ hst)
  | @deliver z x c fits store finish d hop hst hm hd _ =>
    refine ⟨fun x => .inl rfl, fun y c' fits' store' finish' hy hp => ?_⟩
    by_cases hyz : y = z
    · subst hyz
      rw [hop] at hy
      cases hy
      exact .inr ⟨x, d, hm, hd⟩
    · exact .inl (passed_of_update (moved hst noConfusion) (fun hz => absurd hz hyz) hp)
  | visit hop hst _ | doneSync hop hst _ | doneSub hop hst _ =>
    exact quiet rfl (moved hst noConfusion) (clash hop (by intros; nofun))

/-- What is on the wire was read, and what was delivered was read before. -/
structure Carried (N : Net ι ρ χ κ M δ) (s : State ι ρ χ M δ) : Prop where
  read : ∀ x d, s.wire x.1 x.2 = some d → Passed s x
  sent : ∀ y c fits store finish, N.op y = some (.recv c fits store finish) → Passed s y →
    ∃ x, Matched s c x y ∧ Passed s x

/-- No step delivers what was not read. -/
theorem Carried.step (o : N.Carried s) (h : N.Step s s') : N.Carried s' := by
  constructor
  · intro x d hd
    rcases h.moves.1 x with hw | hp
    · rw [hw] at hd
      exact (o.read x d hd).step h
    · exact hp
  · intro y c fits store finish hy hp
    rcases h.moves.2 y c fits store finish hy hp with hp' | ⟨x, d, hm, hd⟩
    · obtain ⟨x, hm, hx⟩ := o.sent y c fits store finish hy hp'
      exact ⟨x, hm.step h, hx.step h⟩
    · exact ⟨x, hm.step h, (o.read x d hd).step h⟩

theorem Reach.carried (h : N.Reach mem s) : N.Carried s := by
  refine Reach.invariant ⟨fun x d hd => ?_, fun y c fits store finish _ hp => ?_⟩ (fun _ _ _ o hs => o.step hs) h
  · cases hd
  · rcases hp with hp | hp <;> cases hp

/-- **A receive that was delivered got the send at its own place**, which was read before. -/
theorem Reach.passed_send (W : N.Wiring) (h : N.Reach mem s) (hx : (W.sends c)[k]? = some x)
    (hy : (W.recvs c)[k]? = some y) (hp : Passed s y) : Passed s x := by
  have posted := h.posted W
  obtain ⟨fits, store, finish, hop⟩ := W.mem_recvs.mp (mem_of_getElem? hy)
  obtain ⟨x', hm, hx'⟩ := h.carried.sent y c fits store finish hop hp
  obtain ⟨k', hxk, hyk⟩ := posted.matched_at h.ordered hm
  -- a receive stands at one place of its channel's text
  obtain rfl : k' = k := by
    have hnodup : (W.recvs c).Nodup := N.picked_nodup _ _ _
    obtain ⟨h1, e1⟩ := List.getElem?_eq_some_iff.mp hyk
    obtain ⟨h2, e2⟩ := List.getElem?_eq_some_iff.mp hy
    exact (hnodup.getElem_inj_iff).mp (e1.trans e2.symm)
  rw [hxk] at hx
  rwa [← Option.some.inj hx]

end Net

end Async
