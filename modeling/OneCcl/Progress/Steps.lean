import Mathlib.Algebra.Order.BigOperators.Group.List
import Mathlib.Algebra.Order.Group.Nat
import OneCcl.Progress.Order

/-!
# The steps of a schedule keep its order

What a step of a call can be, and that each of them, a new run and a new call keep the invariant of the schedule they
are about.
-/

namespace OneCcl

open List EntryStatus

variable {ω : Type}
variable {f f' : FlowControl} {s' : OpSched ω} {a : LoopAction} {m : EntryExecMode} {o st c o' : EntryStatus}
  {b : EntryBody ω}

namespace CclSched

variable {s : OpSched ω} {k x : Nat} {e : OpEntry ω}

/-! ### The steps of the loop -/

/-- What a step of a call can be. -/
inductive LoopStep (s : OpSched ω) : LoopAction → OpSched ω → Prop where
  | atEnd {k : Nat} (hpc : s.pc = .scan k) (hk : s.entries.length ≤ k) : LoopStep s .visit { s with pc := .left }
  | skip {k : Nat} {e : OpEntry ω} (hpc : s.pc = .scan k) (he : s.entries[k]? = some e)
      (hcomp : e.status.isCompleted) : LoopStep s .visit (s.advance k e)
  | noCredit {k : Nat} {e : OpEntry ω} (hpc : s.pc = .scan k) (he : s.entries[k]? = some e)
      (hst : e.status = .notStarted) (h0 : s.flowControl.credits = 0) : LoopStep s .visit (s.advance k e)
  | take {k : Nat} {e : OpEntry ω} {f : FlowControl} (hpc : s.pc = .scan k) (he : s.entries[k]? = some e)
      (hst : e.status = .notStarted) (hf : s.flowControl.takeCredit = some (f, true)) :
      LoopStep s .visit (s.enter f k e e.body.start)
  | again {k : Nat} {e : OpEntry ω} (hpc : s.pc = .scan k) (he : s.entries[k]? = some e) (hst : e.status = .again) :
      LoopStep s .visit (s.enter s.flowControl k e e.body.start)
  | started {k : Nat} {e : OpEntry ω} (hpc : s.pc = .scan k) (he : s.entries[k]? = some e)
      (hst : e.status = .started) : LoopStep s .visit (s.enter s.flowControl k e e.body.update)
  | sub {k : Nat} {e : OpEntry ω} {t t' : OpSched ω} {a : LoopAction} (hpc : s.pc = .inside k)
      (he : s.entries[k]? = some e) (hb : e.body = .subsched t) (ht : t.act a = some t') :
      LoopStep s (.sub a) { s with entries := s.entries.set k { e with body := .subsched t' } }
  | ret {k : Nat} {e : OpEntry ω} {f f' : FlowControl} {b : EntryBody ω} {c o o' st : EntryStatus}
      (hpc : s.pc = .inside k) (he : s.entries[k]? = some e)
      (hr : e.body.result s.flowControl e.status.isLate c o = some (f, b, o'))
      (hx : finishEntry f e.execMode o' = some (f', st)) :
      LoopStep s (.ret c o)
        ({ s with
          flowControl := f'
          entries := s.entries.set k { e with status := st, body := b }
          reached := if e.status.isLate ∧ ¬ st.isLate then s.reached ++ [k] else s.reached }.advance k
            { e with status := st, body := b })

theorem takeCredit_cases {took : Bool} (h : f.takeCredit = some (f', took)) :
    (took = false ∧ f' = f ∧ f.credits = 0) ∨ (took = true ∧ 0 < f.credits ∧
      f' = { f with credits := f.credits - 1, minCredits := min f.minCredits (f.credits - 1) }) := by
  unfold FlowControl.takeCredit at h
  split at h
  next h0 =>
    cases h
    exact .inl ⟨rfl, rfl, h0⟩
  next h0 =>
    split at h
    · cases h
      exact .inr ⟨rfl, Nat.pos_of_ne_zero h0, rfl⟩
    · cases h

theorem loopStep_of_visit (hpc : s.pc = .scan k) (h : s.visit k = some s') : LoopStep s .visit s' := by
  unfold visit at h
  split at h
  next hnone =>
    cases h
    exact .atEnd hpc (getElem?_eq_none_iff.mp hnone)
  next e he =>
    split at h
    next hst =>
      cases h
      exact .skip hpc he (by rw [hst]; rfl)
    next hst =>
      cases h
      exact .skip hpc he (by rw [hst]; rfl)
    next hst =>
      obtain ⟨⟨f, took⟩, hf, rfl⟩ := Option.map_eq_some_iff.mp h
      rcases takeCredit_cases hf with ⟨rfl, -, h0⟩ | ⟨rfl, -, -⟩
      · exact .noCredit hpc he hst h0
      · exact .take hpc he hst hf
    next hst =>
      cases h
      exact .again hpc he hst
    next hst =>
      cases h
      exact .started hpc he hst

theorem loopStep_of_act (h : s.act a = some s') : LoopStep s a s' := by
  cases a with
  | visit =>
    unfold act at h
    split at h
    next k hpc => exact loopStep_of_visit hpc h
    next => cases h
  | sub a =>
    unfold act at h
    split at h
    next k hpc =>
      split at h
      next status barrier mode t he =>
        obtain ⟨t', ht, rfl⟩ := Option.map_eq_some_iff.mp h
        exact .sub hpc he rfl ht
      next => cases h
    next => cases h
  | ret c o =>
    unfold act at h
    split at h
    next k hpc =>
      obtain ⟨e, he, h⟩ := Option.bind_eq_some_iff.mp h
      obtain ⟨⟨f, b, o'⟩, hr, h⟩ := Option.bind_eq_some_iff.mp h
      obtain ⟨⟨f', st⟩, hx, rfl⟩ := Option.map_eq_some_iff.mp h
      exact .ret hpc he hr hx
    next => cases h

/-! ### A step keeps the invariant -/

section Entering

variable {b : EntryBody ω}

theorem statusAt_setBody (he : s.entries[k]? = some e) (i : Nat) :
    statusAt (s.entries.set k { e with body := b }) i = statusAt s.entries i := by
  rw [statusAt_set he]
  split
  next hik => rw [hik, statusAt_of_get he]
  next => rfl

theorem creditSum_setBody (he : s.entries[k]? = some e) (hb : b.copyCredit = e.body.copyCredit) :
    creditSum (s.entries.set k { e with body := b }) = creditSum s.entries := by
  have hset : creditSum (s.entries.set k { e with body := b }) + e.credit = creditSum s.entries + _ := creditSum_set he
  simp only [CclEntry.credit, hb] at hset
  omega

theorem Core.setBody (h : s.Core x) (he : s.entries[k]? = some e) (hb : b.copyCredit = e.body.copyCredit) {y : Nat}
    (hmax : f.maxCredits = s.flowControl.maxCredits) (hcr : f.credits + y = s.flowControl.credits + x)
    (hmin : f.minCredits ≤ f.credits) (pc : LoopPc) :
    Core { s with flowControl := f, entries := s.entries.set k { e with body := b }, pc := pc } y := by
  have hst := fun i => statusAt_setBody (b := b) he i
  refine ⟨?_, ?_, ?_, h.sorted, ?_, ?_, ?_, hmin, ?_⟩
  · rw [length_set]
    exact h.startIdx_le
  · simpa only [hst] using h.leading
  · simpa only [hst] using h.order
  · simpa only [hst] using h.reached_lt
  · simpa only [hst] using h.reached
  · have hold := h.credits
    simp only [creditSum_setBody he hb, hmax]
    omega
  · intro e' he' hlate
    rcases mem_or_eq_of_mem_set he' with he' | rfl
    · exact h.copies e' he' hlate
    · rw [hb]
      exact h.copies e (mem_of_getElem? he) hlate

theorem At.setBody {j : Nat} (h : s.At j) (he : s.entries[k]? = some e) (f : FlowControl) (pc : LoopPc) :
    At { s with flowControl := f, entries := s.entries.set k { e with body := b }, pc := pc } j := by
  have hst := fun i => statusAt_setBody (b := b) he i
  have hbar : ∀ i, barrierAt (s.entries.set k { e with body := b }) i = barrierAt s.entries i :=
    fun i => @barrierAt_set _ _ _ _ { e with body := b } he rfl i
  refine ⟨h.startIdx_le, ?_, ?_⟩
  · simpa only [hst] using h.stuck
  · simpa only [hst, hbar] using h.barriers

theorem Inv.enter (h : s.Inv) (hpc : s.pc = .scan k) (he : s.entries[k]? = some e)
    (hb : b.copyCredit = e.body.copyCredit) (hmax : f.maxCredits = s.flowControl.maxCredits)
    (hmin : f.minCredits ≤ f.credits) (hcr : f.credits + (if e.status = .notStarted then 1 else 0) = s.flowControl.credits)
    (hlate : ∀ i < k, ¬ (statusAt s.entries i).isLate) (hcomp : ¬ e.status.isCompleted) : (s.enter f k e b).Inv := by
  have hcore := h.core
  have hat := h.at_pc
  simp only [PcInv, hpc] at hat
  simp only [insideCredit, hpc] at hcore
  have hst := fun i => statusAt_setBody (b := b) he i
  refine ⟨?_, hat.2.1.setBody he f _, ?_, ?_⟩
  · refine hcore.setBody he hb hmax ?_ hmin _
    simp only [CclSched.enter, insideCredit, hst, statusAt_of_get he]
    exact hcr
  · simpa only [CclSched.enter, hst] using hlate
  · simpa only [CclSched.enter, hst, statusAt_of_get he] using hcomp

end Entering

/-! ### The end of an entry's step -/

theorem finishEntry_spec (ho : o.startResult) (h : finishEntry f m o = some (f', st)) (hmin : f.minCredits ≤ f.credits) :
    f'.maxCredits = f.maxCredits ∧ f'.minCredits ≤ f'.credits ∧ f'.credits + st.credit = f.credits + 1 ∧
      (st.isLate ↔ o = .again) ∧ (st.isLate → st = .again) ∧ (st = .again → f'.credits = f.credits) := by
  unfold finishEntry at h
  split at h
  next hcomp =>
    obtain ⟨f'', hf, hfst⟩ := Option.map_eq_some_iff.mp h
    unfold FlowControl.returnCredit at hf
    split at hf
    next =>
      cases hf
      cases hfst
      rw [hcomp]
      refine ⟨rfl, Nat.le_succ_of_le hmin, ?_, ?_, ?_, ?_⟩ <;> split <;> simp [credit, isLate]
    next => cases hf
  next hcomp =>
    cases h
    refine ⟨rfl, hmin, ?_, ?_, ?_, fun _ => rfl⟩ <;>
      cases o <;> simp_all [credit, isLate, startResult]

theorem progressCopy_spec {st' : EntryStatus} (h : progressCopy f st c = some (f', st')) (hmin : f.minCredits ≤ f.credits) :
    f'.maxCredits = f.maxCredits ∧ f'.minCredits ≤ f'.credits ∧ f'.credits + st'.credit = f.credits + st.credit := by
  have hfinish : ∀ {g : FlowControl}, g.minCredits ≤ g.credits → (o : EntryStatus) → o.startResult →
      finishEntry g .regular o = some (f', st') →
      f'.maxCredits = g.maxCredits ∧ f'.minCredits ≤ f'.credits ∧ f'.credits + st'.credit = g.credits + 1 := by
    intro g hg o ho hx
    obtain ⟨h1, h2, h3, -⟩ := finishEntry_spec ho hx hg
    exact ⟨h1, h2, h3⟩
  cases st with
  | complete | completeOnce =>
    cases h
    exact ⟨rfl, hmin, rfl⟩
  | again =>
    simp only [progressCopy] at h
    split at h
    next hc => exact hfinish hmin c hc h
    next => cases h
  | started =>
    simp only [progressCopy] at h
    split at h
    next hc => exact hfinish hmin c (startResult_of_update hc).1 h
    next => cases h
  | notStarted =>
    obtain ⟨⟨g, took⟩, hg, h⟩ := Option.bind_eq_some_iff.mp h
    rcases takeCredit_cases hg with ⟨rfl, -, -⟩ | ⟨rfl, hpos, rfl⟩
    · cases h
      exact ⟨rfl, hmin, rfl⟩
    · simp only [if_true] at h
      split at h
      next hc =>
        obtain ⟨h1, h2, h3⟩ := hfinish (Nat.min_le_right _ _) c hc h
        refine ⟨h1, h2, ?_⟩
        simp only [credit] at h3 ⊢
        omega
      next => cases h

/-- What an entry's own code leaves behind. An entry that was started is not late again, and a send that has started has
its copy behind it. -/
theorem result_spec {body : EntryBody ω} {late : Bool} (h : body.result f late c o = some (f', b, o'))
    (hmin : f.minCredits ≤ f.credits) (hcopy : late = false → body.copyCredit = 0) :
    f'.maxCredits = f.maxCredits ∧ f'.minCredits ≤ f'.credits ∧
      f'.credits + b.copyCredit = f.credits + body.copyCredit ∧ o'.startResult ∧ (late = false → o' ≠ .again) ∧
      (o' ≠ .again → b.copyCredit = 0) := by
  cases body with
  | subsched t =>
    simp only [EntryBody.result] at h
    split at h
    next =>
      cases h
      refine ⟨rfl, hmin, rfl, ?_, fun _ => ?_, fun _ => rfl⟩ <;> split <;> first | rfl | nofun
    next => cases h
  | op x copy =>
    cases copy with
    | none =>
      obtain ⟨ho, h⟩ := Option.ite_none_right_eq_some.mp h
      cases h
      refine ⟨rfl, hmin, rfl, ?_, ?_, fun _ => rfl⟩
      · cases late with
        | true => exact ho
        | false => exact (startResult_of_update ho).1
      · rintro rfl
        exact (startResult_of_update ho).2
    | some st =>
      cases late with
      | false =>
        simp only [EntryBody.result, Bool.false_eq_true, if_false] at h
        split at h
        next ho =>
          cases h
          exact ⟨rfl, hmin, rfl, (startResult_of_update ho).1, fun _ => (startResult_of_update ho).2, fun _ => hcopy rfl⟩
        next => cases h
      | true =>
        obtain ⟨⟨g, st'⟩, hg, h⟩ := Option.bind_eq_some_iff.mp h
        obtain ⟨h1, h2, h3⟩ := progressCopy_spec hg hmin
        simp only at h
        split at h
        next =>
          cases h
          exact ⟨h1, h2, h3, rfl, nofun, fun hne => absurd rfl hne⟩
        next hdone =>
          split at h
          next ho =>
            cases h
            refine ⟨h1, h2, h3, ho, nofun, fun _ => ?_⟩
            rw [Decidable.not_not.mp hdone]
            rfl
          next => cases h

theorem Inv.ret (h : s.Inv) (hpc : s.pc = .inside k) (he : s.entries[k]? = some e)
    (hr : e.body.result s.flowControl e.status.isLate c o = some (f, b, o'))
    (hx : finishEntry f e.execMode o' = some (f', st)) : Inv ({ s with
      flowControl := f'
      entries := s.entries.set k { e with status := st, body := b }
      reached := if e.status.isLate ∧ ¬ st.isLate then s.reached ++ [k] else s.reached }.advance k
        { e with status := st, body := b }) := by
  have hcore := h.core
  have hin := h.at_pc
  simp only [PcInv, hpc] at hin
  simp only [insideCredit, hpc] at hcore
  obtain ⟨hat, hbefore, hcomp⟩ := hin
  rw [statusAt_of_get he] at hcomp hcore
  have hcopies : e.status.isLate = false → e.body.copyCredit = 0 := fun hl =>
    hcore.copies e (mem_of_getElem? he) (ne_true_of_eq_false hl)
  obtain ⟨hmax, hmin, hcr, hres, hnot, hcopy⟩ := result_spec hr hcore.minCredits_le hcopies
  obtain ⟨hmax', hmin', hcr', hlate, hag, -⟩ := finishEntry_spec hres hx hmin
  -- only the entry's own status has changed, and it is late only if it was late before
  have hst : ∀ i, statusAt (s.entries.set k { e with status := st, body := b }) i =
      if i = k then st else statusAt s.entries i := fun i => statusAt_set he i
  have hold : st.isLate → (statusAt s.entries k).isLate := by
    intro hl
    rw [statusAt_of_get he]
    by_contra hne
    exact hnot (Bool.eq_false_iff.mpr hne) (hlate.mp hl)
  have hother : ∀ i, (statusAt (s.entries.set k { e with status := st, body := b }) i).isLate →
      k ≤ i ∧ (statusAt s.entries i).isLate := by
    intro i hi
    rw [hst] at hi
    split at hi
    next hik => exact ⟨hik.symm.le, hik ▸ hold hi⟩
    next hik => exact ⟨le_of_not_gt fun hlt => hbefore i hlt hi, hi⟩
  have hrlt : ∀ r ∈ s.reached, ∀ i, (statusAt s.entries i).isLate → r < i := hcore.reached_lt
  refine Core.advance ⟨?_, ?_, ?_, ?_, ?_, ?_, ?_, hmin', ?_⟩ ⟨hat.startIdx_le, ?_, ?_⟩
    (by rw [getElem?_set_of_get he, if_pos rfl]) ?_
  · rw [length_set]
    exact hcore.startIdx_le
  · intro i hi
    have hik : i ≠ k := (Nat.lt_of_lt_of_le hi hat.startIdx_le).ne
    simp only [hst, if_neg hik]
    exact hcore.leading i hi
  · intro i j hij hl
    obtain ⟨hki, hl⟩ := hother i hl
    simp only [hst, if_neg ((Nat.lt_of_le_of_lt hki hij).ne')]
    exact hcore.order i j hij hl
  · dsimp only
    split
    next hnow =>
      refine pairwise_append.mpr ⟨hcore.sorted, pairwise_singleton _ _, ?_⟩
      intro r hr' j hj
      rw [mem_singleton.mp hj]
      exact hrlt r hr' k (by rw [statusAt_of_get he]; exact hnow.1)
    next => exact hcore.sorted
  · intro r hr' i hi
    obtain ⟨hki, hl⟩ := hother i hi
    split at hr'
    next hnow =>
      rcases mem_append.mp hr' with hr' | hr'
      · exact hrlt r hr' i hl
      · rw [mem_singleton.mp hr']
        refine Nat.lt_of_le_of_ne hki ?_
        rintro rfl
        simp only [hst, if_pos] at hi
        exact hnow.2 hi
    next => exact hrlt r hr' i hl
  · intro i hi
    rw [hst] at hi
    by_cases hik : i = k
    · rw [if_pos hik] at hi
      have hnl : ¬ st.isLate := by rcases hi with hi | hi <;> rw [hi] <;> exact Bool.false_ne_true
      split
      next => exact mem_append_right _ (mem_singleton.mpr hik)
      next hnow =>
        have hl : ¬ e.status.isLate := fun hl => hnow ⟨hl, hnl⟩
        exact hcore.reached i (.inl (by rw [hik, statusAt_of_get he]; exact (not_late_iff hcomp).mp hl))
    · rw [if_neg hik] at hi
      have hmem := hcore.reached i hi
      split
      · exact mem_append_left _ hmem
      · exact hmem
  · have hset : creditSum (s.entries.set k { e with status := st, body := b }) + e.credit =
        creditSum s.entries + (st.credit + b.copyCredit) := creditSum_set he
    have hone := credit_of_not_completed hcomp
    have hsum := hcore.credits
    simp only [CclEntry.credit] at hset ⊢
    omega
  · intro e' he' hl
    rcases mem_or_eq_of_mem_set he' with he' | rfl
    · exact hcore.copies e' he' hl
    · exact hcopy fun ho => hl (hlate.mpr ho)
  · intro hlt
    simp only [hst, if_neg hlt.ne]
    exact hat.stuck hlt
  · intro j hj hbar i hi
    rw [@barrierAt_set _ _ _ _ { e with status := st, body := b } he rfl] at hbar
    simp only [hst, if_neg ((Nat.lt_of_le_of_lt hi hj).ne)]
    exact hat.barriers j hj hbar i hi
  · intro i hi hl
    have hik := le_antisymm hi (hother i hl).1
    rw [hst, if_pos hik] at hl
    exact .inl ⟨hik, hag hl⟩

theorem Inv.loopStep (h : s.Inv) (hstep : LoopStep s a s') : s'.Inv := by
  have hin := h.at_pc
  have hcore := h.core
  have hmin := h.core.minCredits_le
  have hstart : ∀ b : EntryBody ω, b.start.copyCredit = b.copyCredit := fun b => by cases b <;> rfl
  have hupdate : ∀ b : EntryBody ω, b.update.copyCredit = b.copyCredit := fun b => by cases b <;> rfl
  -- with a late entry at hand, nothing behind it has started
  have hlate : ∀ {k : Nat} {e : OpEntry ω}, s.pc = .scan k → s.entries[k]? = some e → ¬ e.status.isCompleted →
      (e.status = .notStarted → 0 < s.flowControl.credits) → ∀ i < k, ¬ (statusAt s.entries i).isLate := by
    intro k e hpc he hcomp hpos i hi hl
    simp only [PcInv, hpc] at hin
    have hafter := hcore.order i k hi hl
    rw [statusAt_of_get he] at hafter
    rcases hafter with hns | hco
    · exact absurd (hin.2.2 i hi hl) ((hpos hns).ne')
    · exact hcomp (by rw [hco]; rfl)
  cases hstep with
  | @atEnd k hpc hk =>
    simp only [PcInv, hpc] at hin
    simp only [insideCredit, hpc] at hcore
    refine ⟨hcore.at_pc_eq .left, ?_⟩
    show ¬ (statusAt s.entries s.startIdx).isCompleted
    rcases Nat.eq_or_lt_of_le hin.2.1.startIdx_le with heq | hlt
    · rw [heq, statusAt_of_le hk]
      exact Bool.false_ne_true
    · exact hin.2.1.stuck hlt
  | @skip k e hpc he hcomp =>
    simp only [PcInv, hpc] at hin
    simp only [insideCredit, hpc] at hcore
    refine hcore.advance hin.2.1 he fun i hi hl => ?_
    rcases Nat.eq_or_lt_of_le hi with rfl | hlt
    · rw [statusAt_of_get he] at hl
      exact absurd hl (not_late_of_completed hcomp)
    · exact .inr (hin.2.2 i hlt hl)
  | @noCredit k e hpc he hst h0 =>
    simp only [PcInv, hpc] at hin
    simp only [insideCredit, hpc] at hcore
    exact hcore.advance hin.2.1 he fun _ _ _ => .inr h0
  | @take k e f hpc he hst hf =>
    rcases takeCredit_cases hf with ⟨hfalse, -⟩ | ⟨-, hpos, rfl⟩
    · cases hfalse
    · have hcomp : ¬ e.status.isCompleted := by rw [hst]; exact Bool.false_ne_true
      refine h.enter hpc he (hstart _) rfl (Nat.min_le_right _ _) ?_ (hlate hpc he hcomp fun _ => hpos) hcomp
      rw [if_pos hst]
      exact Nat.sub_add_cancel hpos
  | @again k e hpc he hst =>
    have hcomp : ¬ e.status.isCompleted := by rw [hst]; exact Bool.false_ne_true
    have hne : e.status ≠ .notStarted := by simp [hst]
    exact h.enter hpc he (hstart _) rfl hmin (by rw [if_neg hne, Nat.add_zero])
      (hlate hpc he hcomp fun hns => absurd hns hne) hcomp
  | @started k e hpc he hst =>
    have hcomp : ¬ e.status.isCompleted := by rw [hst]; exact Bool.false_ne_true
    have hne : e.status ≠ .notStarted := by simp [hst]
    exact h.enter hpc he (hupdate _) rfl hmin (by rw [if_neg hne, Nat.add_zero])
      (hlate hpc he hcomp fun hns => absurd hns hne) hcomp
  | @sub k e t t' a hpc he hb ht =>
    have hst := fun i => statusAt_setBody (b := .subsched t') he i
    have hcopy : (EntryBody.subsched t').copyCredit = e.body.copyCredit := by rw [hb]; rfl
    simp only [PcInv, hpc] at hin
    have hset := hcore.setBody he hcopy rfl rfl hmin s.pc
    refine ⟨?_, ?_⟩
    · simpa only [insideCredit, hpc, hst] using hset
    · simp only [PcInv, hpc, hst]
      exact ⟨by simpa only [hpc] using hin.1.setBody (b := .subsched t') he s.flowControl s.pc, hin.2⟩
  | ret hpc he hr hx => exact h.ret hpc he hr hx

/-! ### New runs and calls -/

theorem creditSum_reset (l : List (OpEntry ω)) : creditSum (l.map CclEntry.reset) = 0 := by
  refine creditSum_eq_zero fun x hx => ?_
  obtain ⟨e, -, rfl⟩ := mem_map.mp hx
  have hcopy : e.body.reset.copyCredit = 0 := by
    cases e.body with
    | op o copy => cases copy <;> simp [EntryBody.reset, EntryBody.copyCredit]
    | subsched t => rfl
  show e.status.reset.credit + e.body.reset.copyCredit = 0
  rw [hcopy, reset_credit]

theorem statusAt_reset (l : List (OpEntry ω)) (i : Nat) : statusAt (l.map CclEntry.reset) i = (statusAt l i).reset := by
  unfold statusAt
  rw [getElem?_map]
  cases l[i]? <;> rfl

theorem Core.creditSum_of_finished (h : s.Core x) (hfin : s.Finished) : creditSum s.entries = 0 := by
  refine creditSum_eq_zero fun e he => ?_
  obtain ⟨i, hi⟩ := getElem?_of_mem he
  have hlt : i < s.entries.length := (List.getElem?_eq_some_iff.mp hi).1
  have hcomp := h.leading i (hfin.2.symm ▸ hlt)
  rw [statusAt_of_get hi] at hcomp
  have hcopy := h.copies e he (not_late_of_completed hcomp)
  rw [CclEntry.credit, hcopy]
  cases hes : e.status <;> rw [hes] at hcomp <;> first | rfl | cases hcomp

theorem Inv.renew (h : s.Inv) (hren : s.Renewable) : s.renew.Inv := by
  have hin := h.at_pc
  have hcore := h.core
  have hzero : creditSum s.entries = 0 ∧ s.insideCredit = 0 := by
    rcases hren with hready | hfin
    · simp only [PcInv, hready] at hin
      exact ⟨hin, by simp only [insideCredit, hready]⟩
    · exact ⟨hcore.creditSum_of_finished hfin, by simp only [insideCredit, hfin.1]⟩
  have hsum := hcore.credits
  refine ⟨⟨Nat.zero_le _, fun _ hi => absurd hi (Nat.not_lt_zero _), ?_, List.Pairwise.nil,
    forall_mem_nil _, ?_, ?_, hcore.minCredits_le, ?_⟩, creditSum_reset _⟩
  · intro i j _ _
    simp only [CclSched.renew, statusAt_reset]
    exact reset_cases _
  · intro i hi
    simp only [CclSched.renew, statusAt_reset] at hi
    rcases reset_cases (statusAt s.entries i) with hr | hr <;> rw [hr] at hi <;> rcases hi with hi | hi <;>
      cases hi
  · show s.flowControl.credits + creditSum (s.entries.map CclEntry.reset) + 0 = s.flowControl.maxCredits
    rw [creditSum_reset]
    omega
  · intro e he _
    have hle : e.body.copyCredit ≤ creditSum (s.entries.map CclEntry.reset) :=
      (Nat.le_add_left _ _).trans (le_sum_of_mem (mem_map_of_mem he))
    exact Nat.le_zero.mp (creditSum_reset s.entries ▸ hle)

theorem Inv.call (h : s.Inv) (hpc : s.pc = .ready ∨ s.pc = .left) : s.call.Inv := by
  have hcore := h.core
  have hextra : s.insideCredit = 0 := by rcases hpc with hpc | hpc <;> simp only [insideCredit, hpc]
  rw [hextra] at hcore
  refine ⟨hcore.at_pc_eq _, hcore.startIdx_le, ⟨le_rfl, fun hlt => absurd hlt (lt_irrefl _), ?_⟩, ?_⟩
  · intro b hb _ i hi
    exact hcore.leading i (hi.trans_lt hb)
  · intro i hi hl
    exact absurd hl (not_late_of_completed (hcore.leading i hi))

/-- A schedule as its builder leaves it: nothing has started and all credits are at hand. -/
structure NewSched (s : OpSched ω) : Prop where
  pc : s.pc = .ready
  startIdx : s.startIdx = 0
  reached : s.reached = []
  flowControl : ∃ value, s.flowControl = .setMaxCredits value
  status : ∀ e ∈ s.entries, e.status = .notStarted
  copies : ∀ e ∈ s.entries, e.body.copyCredit = 0

theorem NewSched.inv (h : s.NewSched) : s.Inv := by
  have hst : ∀ i, statusAt s.entries i = .notStarted := by
    intro i
    unfold statusAt
    cases hi : s.entries[i]? with
    | none => rfl
    | some e => exact h.status e (mem_of_getElem? hi)
  have hsum : creditSum s.entries = 0 := creditSum_eq_zero fun e he => by
    rw [CclEntry.credit, h.status e he, h.copies e he]
    rfl
  obtain ⟨value, hflow⟩ := h.flowControl
  refine ⟨⟨?_, ?_, fun i j _ _ => .inl (hst j), ?_, ?_, ?_, ?_, ?_, fun e he _ => h.copies e he⟩, ?_⟩
  · rw [h.startIdx]
    exact Nat.zero_le _
  · rw [h.startIdx]
    nofun
  · rw [h.reached]
    exact List.Pairwise.nil
  · rw [h.reached]
    nofun
  · intro i hi
    rw [hst] at hi
    rcases hi with hi | hi <;> cases hi
  · simp only [insideCredit, h.pc, hsum, hflow, FlowControl.setMaxCredits, Nat.add_zero]
  · rw [hflow]
    exact le_rfl
  · simp only [PcInv, h.pc]
    exact hsum

/-! ### The checks of the flow control never throw -/

theorem finishEntry_isSome (hmin : f.minCredits ≤ f.credits) (hmax : f.credits + 1 ≤ f.maxCredits) (m : EntryExecMode)
    (o : EntryStatus) : (finishEntry f m o).isSome := by
  have hret : f.returnCredit = some { f with credits := f.credits + 1 } :=
    if_pos ⟨Nat.succ_pos _, hmax, Nat.lt_succ_of_le hmin⟩
  rw [finishEntry, hret]
  split <;> rfl

theorem takeCredit_isSome (hmax : f.credits ≤ f.maxCredits) : ∃ r, f.takeCredit = some r := by
  unfold FlowControl.takeCredit
  split
  · exact ⟨_, rfl⟩
  · exact ⟨_, if_pos ((Nat.sub_le ..).trans hmax)⟩

theorem progressCopy_isSome (hmin : f.minCredits ≤ f.credits) (hmax : f.credits + st.credit ≤ f.maxCredits)
    (hc : c.startResult) (hup : st = .started → c.updateResult) : (progressCopy f st c).isSome := by
  cases st with
  | complete | completeOnce => rfl
  | again =>
    rw [progressCopy, if_pos hc]
    exact finishEntry_isSome hmin hmax _ _
  | started =>
    rw [progressCopy, if_pos (hup rfl)]
    exact finishEntry_isSome hmin hmax _ _
  | notStarted =>
    obtain ⟨⟨g, took⟩, hg⟩ := takeCredit_isSome hmax
    rw [progressCopy, hg, Option.bind_some]
    rcases takeCredit_cases hg with ⟨rfl, -, -⟩ | ⟨rfl, hpos, rfl⟩
    · rfl
    · rw [if_pos rfl, if_pos hc]
      exact finishEntry_isSome (Nat.min_le_right _ _) ((Nat.sub_add_cancel hpos).trans_le hmax) _ _

/-- What the operation, the copy entry of a send and the schedule of a `SUBSCHED` entry may report. -/
def Reports (late : Bool) (c o : EntryStatus) : EntryBody ω → Prop
  | .op _ none => if late then o.startResult else o.updateResult
  | .op _ (some st) =>
    if late then o.startResult ∧ c.startResult ∧ (st = .started → c.updateResult) else o.updateResult
  | .subsched t => t.pc = .left

theorem result_isSome {body : EntryBody ω} {late : Bool} (hmin : f.minCredits ≤ f.credits)
    (hmax : f.credits + body.copyCredit ≤ f.maxCredits) (h : Reports late c o body) :
    ∃ r, body.result f late c o = some r := by
  cases body with
  | subsched t => exact ⟨_, if_pos h⟩
  | op x copy =>
    cases copy with
    | none => exact ⟨_, if_pos h⟩
    | some st =>
      cases late with
      | false =>
        rw [EntryBody.result, if_neg Bool.false_ne_true]
        exact ⟨_, if_pos h⟩
      | true =>
        obtain ⟨ho, hc, hup⟩ : o.startResult ∧ c.startResult ∧ (st = .started → c.updateResult) := h
        obtain ⟨r, hr⟩ := Option.isSome_iff_exists.mp (progressCopy_isSome hmin hmax hc hup)
        rw [EntryBody.result, if_pos rfl, hr, Option.bind_some, if_pos ho]
        split <;> exact ⟨_, rfl⟩

/-- `take_credit` does not throw at an entry that the loop comes to. -/
theorem Inv.visit_isSome (h : s.Inv) (k : Nat) : (s.visit k).isSome := by
  have hsum := h.core.credits
  obtain ⟨r, hr⟩ := takeCredit_isSome (f := s.flowControl) (by omega)
  unfold visit
  split
  · rfl
  · split <;> first | rfl | rw [hr]; rfl

/-- **No credit is returned that was not taken**: whatever an entry's own code reports, `return_credit` does not throw. -/
theorem Inv.ret_isSome (h : s.Inv) (hpc : s.pc = .inside k) (he : s.entries[k]? = some e)
    (hrep : Reports e.status.isLate c o e.body) : (s.ret k c o).isSome := by
  have hcore := h.core
  have hin := h.at_pc
  simp only [PcInv, hpc] at hin
  simp only [insideCredit, hpc] at hcore
  rw [statusAt_of_get he] at hin hcore
  have hsum := hcore.credits
  have hcopies : e.status.isLate = false → e.body.copyCredit = 0 := fun hl =>
    hcore.copies e (mem_of_getElem? he) (ne_true_of_eq_false hl)
  -- the entry holds a credit of its own, next to the one of its copy
  have hown := credit_of_not_completed hin.2.2
  have hle : e.status.credit + e.body.copyCredit ≤ creditSum s.entries :=
    le_sum_of_mem (mem_map_of_mem (mem_of_getElem? he))
  obtain ⟨⟨f, b, o'⟩, hr⟩ := result_isSome hcore.minCredits_le (by omega) hrep
  obtain ⟨hmax, hmin, hcr, -⟩ := result_spec hr hcore.minCredits_le hcopies
  obtain ⟨x, hx⟩ := Option.isSome_iff_exists.mp (finishEntry_isSome hmin (by omega) e.execMode o')
  rw [CclSched.ret, he, Option.bind_some, hr, Option.bind_some, hx]
  rfl

end CclSched

end OneCcl
