import OneCcl.Progress.Nested

/-!
# What a step leaves as it was

A step changes the status of at most one entry of a schedule, and what an entry is never changes: its place, whether it is
a barrier, its execution mode and its operation.
-/

namespace OneCcl

open List

variable {ω : Type}

/-- The operation of an entry, and whether it is a send with a copy entry. -/
def EntryBody.opOf : EntryBody ω → Option (ω × Bool)
  | op o copy => some (o, copy.isSome)
  | subsched _ => none

variable {b : EntryBody ω}

theorem EntryBody.opOf_eq_some {o : ω} : b.opOf = some (o, false) ↔ b = .op o none := by
  cases b with
  | op x copy => cases copy <;> simp [opOf]
  | subsched t => simp [opOf]

/-- What an entry is, apart from its state. -/
def CclEntry.shape (e : OpEntry ω) : Bool × EntryExecMode × Option (ω × Bool) := (e.barrier, e.execMode, e.body.opOf)

namespace CclSched

def skeleton (s : OpSched ω) : List (Bool × EntryExecMode × Option (ω × Bool)) := s.entries.map CclEntry.shape

variable {s s' : OpSched ω}

/-- How an entry changes in a step: its state inside may, its status only when its own code returns. -/
structure EntryStep (s : OpSched ω) (a : LoopAction) (i : Nat) (e e' : OpEntry ω) : Prop where
  shape : e'.shape = e.shape
  status : e'.status = e.status ∨ ∃ c o o' f f', a = .ret c o ∧ s.pc = .inside i ∧
    e.body.result s.flowControl e.status.isLate c o = some (f, e'.body, o') ∧
    finishEntry f e.execMode o' = some (f', e'.status)

theorem EntryStep.same (a : LoopAction) (i : Nat) (e : OpEntry ω) : EntryStep s a i e e := ⟨rfl, .inl rfl⟩

theorem result_opOf {body : EntryBody ω} {f f' : FlowControl} {late : Bool} {c o o' : EntryStatus}
    (h : body.result f late c o = some (f', b, o')) : b.opOf = body.opOf := by
  cases body with
  | subsched t =>
    obtain ⟨-, h⟩ := Option.ite_none_right_eq_some.mp h
    cases h
    rfl
  | op x copy =>
    cases copy with
    | none =>
      obtain ⟨-, h⟩ := Option.ite_none_right_eq_some.mp h
      cases h
      rfl
    | some st =>
      cases late with
      | false =>
        obtain ⟨-, h⟩ := Option.ite_none_right_eq_some.mp h
        cases h
        rfl
      | true =>
        obtain ⟨r, -, h⟩ := Option.bind_eq_some_iff.mp h
        split at h
        · cases h
          rfl
        · obtain ⟨-, h⟩ := Option.ite_none_right_eq_some.mp h
          cases h
          rfl

variable {a : LoopAction} {i : Nat}

theorem entries_of_loopStep (hstep : LoopStep s a s') :
    s'.entries = s.entries ∨ ∃ k e e', s.entries[k]? = some e ∧ s'.entries = s.entries.set k e' ∧ EntryStep s a k e e' := by
  have hstart : ∀ b : EntryBody ω, b.start.opOf = b.opOf := fun b => by cases b <;> rfl
  have hupdate : ∀ b : EntryBody ω, b.update.opOf = b.opOf := fun b => by cases b <;> rfl
  have hshape : ∀ (e : OpEntry ω) (b : EntryBody ω), b.opOf = e.body.opOf →
      CclEntry.shape { e with body := b } = e.shape := fun e b hb => by simp only [CclEntry.shape, hb]
  cases hstep with
  | atEnd => exact .inl rfl
  | skip | noCredit => exact .inl advance_entries
  | @take k e f hpc he hst hf => exact .inr ⟨k, e, _, he, rfl, hshape e _ (hstart _), .inl rfl⟩
  | @again k e hpc he hst => exact .inr ⟨k, e, _, he, rfl, hshape e _ (hstart _), .inl rfl⟩
  | @started k e hpc he hst => exact .inr ⟨k, e, _, he, rfl, hshape e _ (hupdate _), .inl rfl⟩
  | @sub k e t t' a hpc he hb ht => exact .inr ⟨k, e, _, he, rfl, hshape e _ (by rw [hb]; rfl), .inl rfl⟩
  | @ret k e f f' b c o o' st hpc he hr hx =>
    refine .inr ⟨k, e, _, he, advance_entries, ?_, .inr ⟨c, o, o', f, f', rfl, hpc, hr, hx⟩⟩
    simp only [CclEntry.shape, result_opOf hr]

theorem entry_of_act (hact : s.act a = some s') {e' : OpEntry ω}
    (he' : s'.entries[i]? = some e') : ∃ e, s.entries[i]? = some e ∧ EntryStep s a i e e' := by
  rcases entries_of_loopStep (loopStep_of_act hact) with hsame | ⟨k, e, e₁, he, hset, hstep⟩
  · rw [hsame] at he'
    exact ⟨e', he', .same a i e'⟩
  · rw [hset, getElem?_set_of_get he] at he'
    split at he'
    next hik =>
      cases he'
      exact ⟨e, hik ▸ he, hik ▸ hstep⟩
    next => exact ⟨e', he', .same a i e'⟩

theorem skeleton_of_act (hact : s.act a = some s') : s'.skeleton = s.skeleton := by
  unfold skeleton
  rcases entries_of_loopStep (loopStep_of_act hact) with hsame | ⟨k, e, e₁, he, hset, hstep⟩
  · rw [hsame]
  · refine ext_getElem? fun i => ?_
    rw [hset, getElem?_map, getElem?_map, getElem?_set_of_get he]
    split
    next hik => rw [hik, he, Option.map_some, Option.map_some, hstep.shape]
    next => rfl

theorem skeleton_renew : s.renew.skeleton = s.skeleton := by
  unfold skeleton CclSched.renew
  rw [map_map]
  refine map_congr_left fun e _ => ?_
  show (e.barrier, e.execMode, e.body.reset.opOf) = (e.barrier, e.execMode, e.body.opOf)
  cases e.body with
  | op o copy => cases copy <;> rfl
  | subsched t => rfl

/-- No step changes what the entries are. -/
theorem skeleton_of_step {a : SchedAction} (hstep : s.step a = some s') : s'.skeleton = s.skeleton := by
  cases a with
  | renew =>
    obtain ⟨-, hs⟩ := Option.ite_none_right_eq_some.mp hstep
    exact Option.some.inj hs ▸ skeleton_renew
  | call =>
    obtain ⟨-, hs⟩ := Option.ite_none_right_eq_some.mp hstep
    exact Option.some.inj hs ▸ rfl
  | loop a => exact skeleton_of_act hstep

theorem completed_of_act (hinv : s.Inv) (hact : s.act a = some s')
    (h : (statusAt s.entries i).isCompleted) : (statusAt s'.entries i).isCompleted := by
  have hlen : s'.entries.length = s.entries.length := by
    have hsk := congrArg length (skeleton_of_act hact)
    rwa [skeleton, skeleton, length_map, length_map] at hsk
  have hi : i < s'.entries.length := hlen ▸ lt_of_completed h
  have he' := getElem?_eq_getElem hi
  obtain ⟨e, he, hstep⟩ := entry_of_act hact he'
  rw [statusAt_of_get he] at h
  rw [statusAt_of_get he']
  rcases hstep.status with hst | ⟨c, o, o', f, f', -, hpc, -⟩
  · rw [hst]
    exact h
  · -- the loop does not go into a complete entry
    have hin := hinv.at_pc
    simp only [PcInv, hpc] at hin
    exact absurd h (statusAt_of_get he ▸ hin.2.2)

end CclSched

end OneCcl
