import OneCcl.Progress.Steps

/-!
# Schedules inside schedules

A `SUBSCHED` entry renews the schedule it runs when it starts and calls its `do_progress` from then on. It starts again
only after the schedule has come to its end, so what happens to the inner schedule is a run of its own, and all that is
proved about one schedule holds at every depth.
-/

namespace OneCcl

variable {ω : Type}

namespace CclSched

/-- A property of a schedule and of all the schedules inside of it. -/
inductive Everywhere (P : OpSched ω → Prop) : OpSched ω → Prop where
  | mk {s : OpSched ω} (here : P s)
      (inner : ∀ (i : Nat) (e : OpEntry ω) (t : OpSched ω), s.entries[i]? = some e → e.body = .subsched t →
        Everywhere P t) : Everywhere P s

variable {P : OpSched ω → Prop} {s : OpSched ω} {p q : Prop} {st : EntryStatus}

theorem Everywhere.here : Everywhere P s → P s
  | .mk h _ => h

theorem Everywhere.inner :
    Everywhere P s → ∀ (i : Nat) (e : OpEntry ω) (t : OpSched ω), s.entries[i]? = some e → e.body = .subsched t →
      Everywhere P t
  | .mk _ h => h

theorem Everywhere.imp {Q : OpSched ω → Prop} (hPQ : ∀ s, P s → Q s) (h : Everywhere P s) : Everywhere Q s := by
  induction h with
  | mk here _ ih => exact .mk (hPQ _ here) ih

/-- An entry and its schedule: the schedule may be renewed when the entry starts, waits for a call while the entry is
started, and has come to its end when the entry is complete. -/
def Linked (inside : Prop) (st : EntryStatus) (t : OpSched ω) : Prop :=
  match st with
  | .notStarted => inside ∨ t.Renewable
  | .again => False
  | .started => inside ∨ t.pc = .left
  | .complete | .completeOnce => t.Finished

theorem Linked.mono (hpq : p → q) {t : OpSched ω} (h : Linked p st t) : Linked q st t := by
  cases st with
  | notStarted | started => exact h.imp_left hpq
  | again | complete | completeOnce => exact h

/-- The invariant of a schedule, and how its entries stand to the schedules they run. -/
structure Good (s : OpSched ω) : Prop where
  inv : s.Inv
  linked : ∀ (i : Nat) (e : OpEntry ω) (t : OpSched ω), s.entries[i]? = some e → e.body = .subsched t →
    Linked (s.pc = .inside i) e.status t

variable {s s' t : OpSched ω} {k : Nat} {e : OpEntry ω}

theorem good_of_new (h : Everywhere NewSched s) : Everywhere Good s := by
  induction h with
  | mk here inner ih =>
    refine .mk ⟨here.inv, fun i e t he hb => ?_⟩ ih
    rw [here.status e (List.mem_of_getElem? he)]
    exact .inr (.inl (inner i e t he hb).here.pc)

theorem Everywhere.good_of_inner (h : Everywhere Good s) (hinv : s'.Inv)
    (hinner : ∀ (i : Nat) (e' : OpEntry ω) (t : OpSched ω), s'.entries[i]? = some e' → e'.body = .subsched t →
      (∃ e, s.entries[i]? = some e ∧ e.body = .subsched t ∧ e.status = e'.status ∧ s.pc ≠ .inside i) ∨
        (Linked (s'.pc = .inside i) e'.status t ∧ Everywhere Good t)) : Everywhere Good s' := by
  refine .mk ⟨hinv, ?_⟩ ?_
  · intro i e' t he' hb
    rcases hinner i e' t he' hb with ⟨e, he, hbe, hst, hpc⟩ | ⟨hlink, -⟩
    · rw [← hst]
      exact (h.here.linked i e t he hbe).mono fun hin => absurd hin hpc
    · exact hlink
  · intro i e' t he' hb
    rcases hinner i e' t he' hb with ⟨e, he, hbe, -⟩ | ⟨-, hgood⟩
    · exact h.inner i e t he hbe
    · exact hgood

theorem advance_entries : (s.advance k e).entries = s.entries := by
  unfold CclSched.advance
  repeat' split
  all_goals rfl

theorem Everywhere.good_advance (h : Everywhere Good s) (hpc : s.pc = .scan k) (hinv : (s.advance k e).Inv) :
    Everywhere Good (s.advance k e) := by
  refine h.good_of_inner hinv fun i e' t he' hb => .inl ⟨e', ?_, hb, rfl, by rw [hpc]; nofun⟩
  rwa [advance_entries] at he'

theorem Everywhere.good_set (h : Everywhere Good s) (hpc : s.pc = .scan k ∨ s.pc = .inside k)
    (he : s.entries[k]? = some e) {e' : OpEntry ω} (hinv : s'.Inv) (hset : s'.entries = s.entries.set k e')
    (hnew : ∀ t, e'.body = .subsched t → Linked (s'.pc = .inside k) e'.status t ∧ Everywhere Good t) :
    Everywhere Good s' := by
  refine h.good_of_inner hinv fun i e₁ t he₁ hb => ?_
  rw [hset, getElem?_set_of_get he] at he₁
  split at he₁
  next hik =>
    cases he₁
    exact .inr (hik ▸ hnew t hb)
  next hik =>
    refine .inl ⟨e₁, he₁, hb, rfl, ?_⟩
    rcases hpc with hpc | hpc <;> rw [hpc]
    · nofun
    · exact fun hin => hik (LoopPc.inside.inj hin).symm

/-! ### The inner schedule is renewed and called -/

theorem Inv.credit_eq_zero (h : s.Inv) (hren : s.Renewable) (he : e ∈ s.entries) : e.status.credit = 0 := by
  have hsum : creditSum s.entries = 0 := by
    rcases hren with hready | hfin
    · have hin := h.at_pc
      simp only [PcInv, hready] at hin
      exact hin
    · exact h.core.creditSum_of_finished hfin
  have hle : e.credit ≤ creditSum s.entries := List.le_sum_of_mem (List.mem_map_of_mem he)
  rw [hsum] at hle
  exact Nat.le_zero.mp ((Nat.le_add_right _ _).trans hle)

theorem Linked.reset (h : Linked p st t) (hp : ¬ p) (hcredit : st.credit = 0) : Linked q st.reset t := by
  cases st with
  | notStarted => exact .inr (h.resolve_left hp)
  | again | started => cases hcredit
  | complete => exact .inr (.inr h)
  | completeOnce => exact h

/-- A new run starts in order, -/
theorem Everywhere.good_renew (h : Everywhere Good s) (hren : s.Renewable) : Everywhere Good s.renew := by
  have hout : ∀ i, s.pc ≠ .inside i := by
    intro i
    rcases hren with hpc | ⟨hpc, -⟩ <;> rw [hpc] <;> nofun
  refine h.good_of_inner (h.here.inv.renew hren) fun i e' t he' hb => .inr ?_
  simp only [CclSched.renew, List.getElem?_map] at he'
  obtain ⟨e, he, rfl⟩ := Option.map_eq_some_iff.mp he'
  have hbe : e.body = .subsched t := by
    have hreset : e.body.reset = .subsched t := hb
    cases hbody : e.body with
    | op o copy => rw [hbody] at hreset; cases hreset
    | subsched u => rw [hbody] at hreset; exact hreset
  have hcredit := h.here.inv.credit_eq_zero hren (List.mem_of_getElem? he)
  exact ⟨(h.here.linked i e t he hbe).reset (hout i) hcredit, h.inner i e t he hbe⟩

/-- and so does a new call. -/
theorem Everywhere.good_call (h : Everywhere Good s) (hpc : s.pc = .ready ∨ s.pc = .left) : Everywhere Good s.call := by
  refine h.good_of_inner (h.here.inv.call hpc) fun i e' t he' hb => .inl ⟨e', he', hb, rfl, ?_⟩
  rcases hpc with hpc | hpc <;> rw [hpc] <;> nofun

theorem Everywhere.good_start (h : Everywhere Good t) (hren : t.Renewable) : Everywhere Good t.renew.call :=
  (h.good_renew hren).good_call (.inl rfl)

/-! ### Steps and runs -/

theorem linked_of_ret {body : EntryBody ω} {f f' g : FlowControl} {m : EntryExecMode} {late : Bool}
    {c o o' : EntryStatus} (hr : body.result f late c o = some (f', .subsched t, o'))
    (hx : finishEntry f' m o' = some (g, st)) : body = .subsched t ∧ ∀ p, Linked p st t := by
  cases body with
  | op x copy =>
    -- an operation stays an operation
    cases copy with
    | none => cases (Option.ite_none_right_eq_some.mp hr).2
    | some st =>
      cases late with
      | false => cases (Option.ite_none_right_eq_some.mp hr).2
      | true =>
        obtain ⟨r, -, hr⟩ := Option.bind_eq_some_iff.mp hr
        split at hr
        · cases hr
        · cases (Option.ite_none_right_eq_some.mp hr).2
  | subsched u =>
    obtain ⟨hleft, hr⟩ := Option.ite_none_right_eq_some.mp hr
    obtain ⟨-, hbody, rfl⟩ := Prod.mk.inj (Option.some.inj hr) |>.imp id Prod.mk.inj
    cases hbody
    refine ⟨rfl, fun p => ?_⟩
    split at hx
    next hend =>
      obtain ⟨g', -, hst⟩ := Option.map_eq_some_iff.mp hx
      cases hst
      split <;> exact ⟨hleft, hend⟩
    next =>
      cases hx
      exact .inr hleft

/-- A step of the loop keeps the schedule and those inside it in order; by induction on how deep it is. -/
theorem Everywhere.good_act {a : LoopAction} (h : Everywhere Good s) (hact : s.act a = some s') : Everywhere Good s' := by
  induction a generalizing s s' with
  | visit =>
    have hstep := loopStep_of_act hact
    have hinv := h.here.inv.loopStep hstep
    have hold := h.here.linked
    cases hstep with
    | @atEnd k hpc hk =>
      exact h.good_of_inner hinv fun i e' t he' hb => .inl ⟨e', he', hb, rfl, by rw [hpc]; nofun⟩
    | @skip k e hpc he hcomp => exact h.good_advance hpc hinv
    | @noCredit k e hpc he hst h0 => exact h.good_advance hpc hinv
    | @take k e f hpc he hst hf =>
      refine h.good_set (.inl hpc) he hinv rfl fun t hb => ?_
      cases hbody : e.body with
      | op o copy => rw [hbody] at hb; cases hb
      | subsched u =>
        rw [hbody] at hb
        cases hb
        have hlink := hold k e u he hbody
        rw [hst] at hlink
        have hren : u.Renewable := hlink.resolve_left (by rw [hpc]; nofun)
        exact ⟨by simp only [hst]; exact .inl rfl, (h.inner k e u he hbody).good_start hren⟩
    | @again k e hpc he hst =>
      refine h.good_set (.inl hpc) he hinv rfl fun t hb => ?_
      cases hbody : e.body with
      | op o copy => rw [hbody] at hb; cases hb
      | subsched u =>
        have hlink := hold k e u he hbody
        rw [hst] at hlink
        exact hlink.elim
    | @started k e hpc he hst =>
      refine h.good_set (.inl hpc) he hinv rfl fun t hb => ?_
      cases hbody : e.body with
      | op o copy => rw [hbody] at hb; cases hb
      | subsched u =>
        rw [hbody] at hb
        cases hb
        have hlink := hold k e u he hbody
        rw [hst] at hlink
        have hleft : u.pc = .left := hlink.resolve_left (by rw [hpc]; nofun)
        exact ⟨by simp only [hst]; exact .inl rfl, (h.inner k e u he hbody).good_call (.inr hleft)⟩
  | sub a ih =>
    have hstep := loopStep_of_act hact
    have hinv := h.here.inv.loopStep hstep
    have hold := h.here.linked
    cases hstep with
    | @sub k e t t' a hpc he hb ht =>
      refine h.good_set (.inr hpc) he hinv rfl fun u hu => ?_
      cases hu
      refine ⟨?_, ih (h.inner k e t he hb) ht⟩
      have hcomp := h.here.inv.at_pc
      simp only [PcInv, hpc] at hcomp
      have hcomp := hcomp.2.2
      have hlink := hold k e t he hb
      rw [statusAt_of_get he] at hcomp
      cases hst : e.status with
      | notStarted | started => exact .inl hpc
      | again => rw [hst] at hlink; exact hlink.elim
      | complete | completeOnce => rw [hst] at hcomp; exact absurd rfl hcomp
  | ret c o =>
    have hstep := loopStep_of_act hact
    have hinv := h.here.inv.loopStep hstep
    cases hstep with
    | @ret k e f f' b c o o' st hpc he hr hx =>
      refine h.good_set (.inr hpc) he hinv advance_entries fun t hb => ?_
      obtain rfl : b = .subsched t := hb
      obtain ⟨hbody, hlink⟩ := linked_of_ret hr hx
      exact ⟨hlink _, h.inner k e t he hbody⟩

/-- Every step keeps them in order, -/
theorem Everywhere.good_step {a : SchedAction} (h : Everywhere Good s) (hstep : s.step a = some s') :
    Everywhere Good s' := by
  cases a with
  | renew =>
    obtain ⟨hren, hs⟩ := Option.ite_none_right_eq_some.mp hstep
    exact Option.some.inj hs ▸ h.good_renew hren
  | call =>
    obtain ⟨hpc, hs⟩ := Option.ite_none_right_eq_some.mp hstep
    exact Option.some.inj hs ▸ h.good_call hpc
  | loop a => exact h.good_act hstep

/-- and so does every run. -/
theorem good_of_run (hnew : Everywhere NewSched s) (hrun : s.Run s') : Everywhere Good s' := by
  induction hrun with
  | refl => exact good_of_new hnew
  | tail _ hstep ih =>
    obtain ⟨a, ha⟩ := hstep
    exact ih.good_step ha

/-- At every moment of any sequence of calls and reruns, in a schedule and in all the schedules inside of it: the entries
have reached the started state in the order of their indices and at most once in the run, nothing behind a barrier is
attempted before the barrier and all before it are complete, `start_idx` counts the complete entries at the head after
each call, and the credits that are out are those of the entries that took one and are not complete. -/
theorem do_progress_in_order {s₀ s : OpSched ω} (hnew : Everywhere NewSched s₀) (hrun : s₀.Run s) : Everywhere InOrder s :=
  (good_of_run hnew hrun).imp fun _ h => h.inv.inOrder

theorem run_of_foldlM {l : List SchedAction} (h : l.foldlM CclSched.step s = some s') : s.Run s' := by
  induction l generalizing s with
  | nil =>
    cases h
    exact .refl
  | cons a l ih =>
    obtain ⟨s₁, ha, hl⟩ := Option.bind_eq_some_iff.mp h
    exact .head ⟨a, ha⟩ (ih hl)

/-- A schedule with one credit: an operation that is a barrier and runs once, and a schedule of one operation. -/
def barrierThenSubsched : OpSched Unit where
  startIdx := 0
  flowControl := .setMaxCredits 1
  entries :=
    [⟨.notStarted, true, .once, .op () none⟩,
      ⟨.notStarted, false, .regular,
        .subsched ⟨0, .setMaxCredits 1, [⟨.notStarted, false, .regular, .op () none⟩], .ready, []⟩⟩]
  pc := .ready
  reached := []

theorem newSched_of_ready {l : List (OpEntry ω)} (value : Nat) (hst : ∀ e ∈ l, e.status = .notStarted)
    (hcopy : ∀ e ∈ l, e.body.copyCredit = 0) : NewSched ⟨0, .setMaxCredits value, l, .ready, []⟩ :=
  ⟨rfl, rfl, rfl, ⟨value, rfl⟩, hst, hcopy⟩

theorem barrierThenSubsched_new : Everywhere NewSched barrierThenSubsched := by
  refine .mk (newSched_of_ready 1 (by simp) (by simp [EntryBody.copyCredit])) fun i e t he hb => ?_
  rcases i with _ | _ | i
  · cases he
    cases hb
  · cases he
    cases hb
    refine .mk (newSched_of_ready 1 (by simp) (by simp [EntryBody.copyCredit])) fun i e t he hb => ?_
    rcases i with _ | i
    · cases he
      cases hb
    · cases he
  · cases he

/-- The barrier asks once to be tried again; then both entries run, and a second run begins. -/
def barrierThenSubschedRun : List SchedAction :=
  [.call, .loop .visit, .loop (.ret .started .again), .call, .loop .visit, .loop (.ret .started .complete), .loop .visit,
    .loop (.sub .visit), .loop (.sub (.ret .started .complete)), .loop (.sub .visit),
    .loop (.ret .started .started), .loop .visit, .renew, .call, .loop .visit]

/-- The schedule is in order in the middle of its second run. -/
theorem barrierThenSubsched_in_order : Everywhere NewSched barrierThenSubsched ∧
      ∃ s, barrierThenSubsched.Run s ∧ s.startIdx = 1 ∧ s.pc = .scan 1 ∧ Everywhere InOrder s := by
  obtain ⟨s, hs, hidx, hpc⟩ : ∃ s, barrierThenSubschedRun.foldlM CclSched.step barrierThenSubsched = some s ∧
      s.startIdx = 1 ∧ s.pc = .scan 1 := ⟨_, rfl, rfl, rfl⟩
  have hrun := run_of_foldlM hs
  exact ⟨barrierThenSubsched_new, s, hrun, hidx, hpc, do_progress_in_order barrierThenSubsched_new hrun⟩

end CclSched

end OneCcl
