import Mathlib.Data.List.Induction
import OneCcl.Comm.AtlTag

/-!
# Schedule ids

A communicator numbers its schedules with two counters, one for the schedules of the user's collectives and one for those
the library starts on its own (`ccl_comm::get_sched_id`). The ids are 16 bit numbers. They were meant to come from the two
halves of `max_sched_count`.

`ccl_comm::init` starts each counter in the half that `get_sched_id` sends the *other* one back to. So the two spaces stay
apart only as long as neither counter has left the half it started in (`schedIds_separate_iff`).
-/

namespace OneCcl

open List

variable {k id taken next : Nat} {call : SchedIdCall} {first : Option SchedIdCall} {before : List SchedIdCall}

/-- The two counters of a communicator. -/
structure SchedIds where
  nextSchedIdInternal : Nat
  nextSchedIdExternal : Nat
  deriving DecidableEq, Repr

/-- The arguments of a call of `get_sched_id`. -/
structure SchedIdCall where
  useInternalSpace : Bool
  isPt2pt : Bool
  deriving DecidableEq, Repr

namespace SchedIds

variable (layout : TagLayout)

/-- The counters that `ccl_comm::init` sets. -/
def init : SchedIds := ⟨layout.maxSchedCount / 2, 0⟩

/-- `ccl_comm::get_sched_id`, on `uint16_t` counters: the id and the counters it leaves. -/
def getSchedId (s : SchedIds) (call : SchedIdCall) : Nat × SchedIds :=
  let nextSchedId := if call.useInternalSpace then s.nextSchedIdInternal else s.nextSchedIdExternal
  let maxSchedCount := layout.maxSchedCount
  let firstSchedId := if call.useInternalSpace then 0 else maxSchedCount / 2
  let maxSchedId := if call.useInternalSpace then maxSchedCount / 2 else maxSchedCount
  let id := nextSchedId
  let nextSchedId := if call.isPt2pt then nextSchedId else (nextSchedId + 1) % 2 ^ 16
  let nextSchedId := if nextSchedId = maxSchedId then firstSchedId else nextSchedId
  (id, if call.useInternalSpace then { s with nextSchedIdInternal := nextSchedId }
    else { s with nextSchedIdExternal := nextSchedId })

def getSchedIds : SchedIds → List SchedIdCall → List Nat
  | _, [] => []
  | s, call :: calls => (s.getSchedId layout call).1 :: getSchedIds (s.getSchedId layout call).2 calls

/-- The counters after a sequence of calls. -/
def after (calls : List SchedIdCall) : SchedIds :=
  calls.foldl (fun s call => (s.getSchedId layout call).2) (init layout)

theorem after_concat (calls : List SchedIdCall) (call : SchedIdCall) :
    after layout (calls ++ [call]) = ((after layout calls).getSchedId layout call).2 := by
  rw [after, foldl_append]
  rfl

def nextFor (s : SchedIds) (call : SchedIdCall) : Nat :=
  if call.useInternalSpace then s.nextSchedIdInternal else s.nextSchedIdExternal

theorem getElem?_getSchedIds (calls : List SchedIdCall) (s : SchedIds) (k : Nat) :
    (s.getSchedIds layout calls)[k]? = calls[k]?.map fun call =>
      ((calls.take k).foldl (fun s call => (s.getSchedId layout call).2) s).nextFor call := by
  induction calls generalizing s k with
  | nil => rfl
  | cons call calls ih =>
    cases k with
    | zero => rfl
    | succ k => exact ih _ k

end SchedIds

open SchedIds

section

variable (layout : TagLayout)

/-- A call of a sequence and the id it got. -/
def Answered (calls : List SchedIdCall) (k : Nat) (call : SchedIdCall) (id : Nat) : Prop :=
  calls[k]? = some call ∧ ((init layout).getSchedIds layout calls)[k]? = some id

def InHalf (upper : Bool) (id : Nat) : Prop :=
  if upper then layout.maxSchedCount / 2 ≤ id ∧ id < layout.maxSchedCount else id < layout.maxSchedCount / 2

/-- **What schedule ids are for**: a sequence of calls got ids that are never reserved ones, the two spaces had a half
each, and an id came back only after all others of its half. The parameter says whether the internal space had the upper
half. -/
structure SchedIdsSeparate (calls : List SchedIdCall) (upper : Bool) : Prop where
  below : ∀ k call id, Answered layout calls k call id → id < layout.maxSchedCount ∧ id ∉ layout.reservedSchedIds
  half : ∀ k call id, Answered layout calls k call id → InHalf layout (call.useInternalSpace == upper) id
  reuse : ∀ i j call id, i < j → call.isPt2pt = false → Answered layout calls i call id → Answered layout calls j call id →
    ∀ id', InHalf layout (call.useInternalSpace == upper) id' → ∃ k, i ≤ k ∧ k < j ∧ Answered layout calls k call id'

/-- How many ids a space has given away for good. -/
def idsTaken (internal : Bool) (calls : List SchedIdCall) : Nat :=
  calls.countP fun call => call.useInternalSpace == internal && !call.isPt2pt

/-- A call that comes while its space is still in the half where `init` put it: fewer ids are taken than the half has,
and for the internal space the first call was not a point-to-point one (that one would send the counter back to 0). -/
def ComesInTime (before : List SchedIdCall) (call : SchedIdCall) : Prop :=
  if call.useInternalSpace then
    idsTaken true before < layout.maxSchedCount - layout.maxSchedCount / 2 ∧
      before.find? (·.useInternalSpace) ≠ some ⟨true, true⟩
  else idsTaken false before < layout.maxSchedCount / 2

variable {layout} {calls : List SchedIdCall}

theorem answered_iff : Answered layout calls k call id ↔
    calls[k]? = some call ∧ (after layout (calls.take k)).nextFor call = id := by
  unfold Answered
  rw [getElem?_getSchedIds]
  constructor
  · rintro ⟨hc, hid⟩
    rw [hc] at hid
    exact ⟨hc, Option.some.inj hid⟩
  · rintro ⟨hc, hid⟩
    rw [hc]
    exact ⟨rfl, congrArg some hid⟩

theorem InHalf.unique {b b' : Bool} (h : InHalf layout b id) (h' : InHalf layout b' id) : b = b' := by
  cases b <;> cases b'
  · rfl
  · exact absurd h h'.1.not_gt
  · exact absurd h' h.1.not_gt
  · rfl

/-! ## The external counter -/

/-- It starts at 0 and, once past the middle, never comes back below it. -/
def ExternalAt (layout : TagLayout) (taken next : Nat) : Prop :=
  taken < layout.maxSchedCount / 2 ∧ next = taken ∨
    layout.maxSchedCount / 2 ≤ taken ∧ layout.maxSchedCount / 2 ≤ next ∧ next < layout.maxSchedCount

theorem ExternalAt.succ (h : ExternalAt layout taken next) : ExternalAt layout (taken + 1)
    (if (next + 1) % 2 ^ 16 = layout.maxSchedCount then layout.maxSchedCount / 2 else (next + 1) % 2 ^ 16) := by
  have hlt := layout.maxSchedCount_lt
  unfold ExternalAt at *
  rw [Nat.mod_eq_of_lt (by omega)]
  split <;> omega

variable (layout) in
theorem externalAt (calls : List SchedIdCall) :
    ExternalAt layout (idsTaken false calls) (after layout calls).nextSchedIdExternal := by
  induction calls using reverseRecOn with
  | nil => exact .inl ⟨layout.maxSchedCount_pos, rfl⟩
  | append_singleton calls call ih =>
    rw [after_concat, idsTaken, countP_append, ← idsTaken]
    rcases call with ⟨internal, pt2pt⟩
    cases internal with
    | true => exact ih
    | false =>
      cases pt2pt with
      | false => exact ih.succ
      | true =>
        -- a point-to-point call leaves the counter, which is never at the bound
        have hne : (after layout calls).nextSchedIdExternal ≠ layout.maxSchedCount := by
          unfold ExternalAt at ih
          omega
        simpa [SchedIds.getSchedId, hne] using ih

/-! ## The internal counter -/

/-- It starts in the middle. A first call for a point-to-point schedule sends it to 0; otherwise it runs through the upper
half, and then never is in the upper half again. -/
def InternalAt (layout : TagLayout) (first : Option SchedIdCall) (taken next : Nat) : Prop :=
  match first with
  | none => taken = 0 ∧ next = layout.maxSchedCount / 2
  | some call =>
    if call.isPt2pt then next < layout.maxSchedCount / 2
    else 0 < taken ∧ (layout.maxSchedCount / 2 + taken < layout.maxSchedCount ∧
        next = layout.maxSchedCount / 2 + taken ∨
      layout.maxSchedCount ≤ layout.maxSchedCount / 2 + taken ∧ next < 2 ^ 16 ∧
        ¬ (layout.maxSchedCount / 2 ≤ next ∧ next < layout.maxSchedCount))

theorem InternalAt.succ (h : InternalAt layout first taken next) :
    InternalAt layout (first.or (some ⟨true, false⟩)) (taken + 1)
      (if (next + 1) % 2 ^ 16 = layout.maxSchedCount / 2 then 0 else (next + 1) % 2 ^ 16) := by
  have hpos := layout.maxSchedCount_pos
  have hlt := layout.maxSchedCount_lt
  rcases first with _ | ⟨internal, pt2pt⟩
  · obtain ⟨rfl, rfl⟩ := h
    show 0 < 0 + 1 ∧ _
    rw [Nat.mod_eq_of_lt (by omega), if_neg (by omega)]
    omega
  · cases pt2pt with
    | true =>
      have hn : next < layout.maxSchedCount / 2 := h
      show _ < _
      rw [Nat.mod_eq_of_lt (by omega)]
      split <;> omega
    | false =>
      have hn : 0 < taken ∧ _ := h
      show 0 < taken + 1 ∧ _
      split <;> omega

theorem InternalAt.pt2pt (h : InternalAt layout first taken next) : InternalAt layout (first.or (some ⟨true, true⟩)) taken
      (if next = layout.maxSchedCount / 2 then 0 else next) := by
  have hpos := layout.maxSchedCount_pos
  rcases first with _ | ⟨internal, pt2pt⟩
  · obtain ⟨rfl, rfl⟩ := h
    rw [if_pos rfl]
    exact hpos
  · cases pt2pt with
    | true =>
      have hn : next < layout.maxSchedCount / 2 := h
      rw [if_neg hn.ne]
      exact hn
    | false =>
      have hn : 0 < taken ∧ _ := h
      rw [if_neg (by omega)]
      exact h

variable (layout) in
theorem internalAt (calls : List SchedIdCall) : InternalAt layout (calls.find? (·.useInternalSpace))
    (idsTaken true calls) (after layout calls).nextSchedIdInternal := by
  induction calls using reverseRecOn with
  | nil => exact ⟨rfl, rfl⟩
  | append_singleton calls call ih =>
    rw [after_concat, idsTaken, countP_append, ← idsTaken, find?_append]
    rcases call with ⟨internal, pt2pt⟩
    cases internal with
    | false => simpa [SchedIds.getSchedId] using ih
    | true =>
      cases pt2pt with
      | false => exact ih.succ
      | true => exact ih.pt2pt

/-! ## Both spaces -/

theorem nextFor_of_comesInTime (h : ComesInTime layout before call) :
    (after layout before).nextFor call = (if call.useInternalSpace then layout.maxSchedCount / 2 else 0) +
      idsTaken call.useInternalSpace before ∧
    InHalf layout call.useInternalSpace ((after layout before).nextFor call) := by
  unfold ComesInTime at h
  unfold InHalf nextFor
  rcases call with ⟨internal, pt2pt⟩
  cases internal with
  | false =>
    have hext := externalAt layout before
    unfold ExternalAt at hext
    simp only [Bool.false_eq_true, if_false] at h ⊢
    omega
  | true =>
    have hint := internalAt layout before
    simp only [if_true] at h ⊢
    rcases hfirst : before.find? (·.useInternalSpace) with _ | ⟨internal', pt2pt'⟩
    · rw [hfirst] at hint
      obtain ⟨htaken, hnext⟩ := hint
      omega
    · rw [hfirst] at hint
      have hspace : internal' = true := find?_some hfirst
      cases pt2pt' with
      | true => exact absurd (by rw [hfirst, hspace]) h.2
      | false =>
        have hn : 0 < _ ∧ _ := hint
        omega

theorem comesInTime_of_inHalf (h : InHalf layout call.useInternalSpace ((after layout before).nextFor call)) :
    ComesInTime layout before call := by
  unfold ComesInTime
  unfold InHalf nextFor at h
  rcases call with ⟨internal, pt2pt⟩
  cases internal with
  | false =>
    have hext := externalAt layout before
    unfold ExternalAt at hext
    simp only [Bool.false_eq_true, if_false] at h ⊢
    omega
  | true =>
    have hint := internalAt layout before
    simp only [if_true] at h ⊢
    rcases hfirst : before.find? (·.useInternalSpace) with _ | ⟨internal', pt2pt'⟩
    · rw [hfirst] at hint
      obtain ⟨htaken, -⟩ := hint
      exact ⟨by omega, fun hsome => absurd (hfirst.symm.trans hsome) nofun⟩
    · rw [hfirst] at hint
      cases pt2pt' with
      | true =>
        have hn : _ < layout.maxSchedCount / 2 := hint
        omega
      | false =>
        have hn : 0 < _ ∧ _ := hint
        refine ⟨by omega, fun hsome => ?_⟩
        cases congrArg SchedIdCall.isPt2pt (Option.some.inj (hfirst.symm.trans hsome))

variable (layout) in
theorem exists_first_call (hc : calls[k]? = some call) : ∃ i first,
    calls[i]? = some first ∧ first.useInternalSpace = call.useInternalSpace ∧ ComesInTime layout (calls.take i) first := by
  have hsome : (calls.find? fun c => c.useInternalSpace == call.useInternalSpace).isSome := by
    rw [find?_isSome]
    exact ⟨call, mem_of_getElem? hc, beq_self_eq_true _⟩
  obtain ⟨first, hfirst⟩ := Option.isSome_iff_exists.mp hsome
  obtain ⟨hspace, before, rest, rfl, hbefore⟩ := find?_eq_some_iff_append.mp hfirst
  have hother : ∀ c ∈ before, c.useInternalSpace ≠ first.useInternalSpace := by
    intro c hmem heq
    have := hbefore c hmem
    rw [heq, hspace] at this
    cases this
  have htaken : idsTaken first.useInternalSpace before = 0 := by
    refine countP_eq_zero.mpr fun c hmem => ?_
    simp [hother c hmem]
  refine ⟨before.length, first, by simp, beq_iff_eq.mp hspace, ?_⟩
  rw [take_left]
  unfold ComesInTime
  have hpos := layout.maxSchedCount_pos
  split
  · next hint =>
    rw [hint] at htaken hother
    refine ⟨by omega, ?_⟩
    rw [find?_eq_none.mpr fun c hmem h => hother c hmem h]
    exact nofun
  · next hint =>
    rw [Bool.not_eq_true] at hint
    rw [hint] at htaken
    omega

theorem idsTaken_lt {i j : Nat} (hij : i < j) (hc : calls[i]? = some call) (htakes : call.isPt2pt = false) :
    idsTaken call.useInternalSpace (calls.take i) < idsTaken call.useInternalSpace (calls.take j) := by
  have hone : idsTaken call.useInternalSpace (calls.take (i + 1)) =
      idsTaken call.useInternalSpace (calls.take i) + 1 := by
    unfold idsTaken
    rw [take_add_one, hc, countP_append]
    simp [htakes]
  have hsub : (calls.take (i + 1)).Sublist (calls.take j) := take_sublist_take_left (l := calls) hij
  have hle : idsTaken call.useInternalSpace (calls.take (i + 1)) ≤ _ := hsub.countP_le
  exact (Nat.lt_of_lt_of_eq (Nat.lt_succ_self _) hone.symm).trans_le hle

end

/-- **Schedule ids.** The ids of a sequence of calls are what they should be exactly when every call comes while its
space is in the half it started in. -/
theorem schedIds_separate_iff (layout : TagLayout) (calls : List SchedIdCall) :
    (∃ upper, SchedIdsSeparate layout calls upper) ↔
      ∀ k call, calls[k]? = some call → ComesInTime layout (calls.take k) call := by
  constructor
  · rintro ⟨upper, h⟩ k call hc
    -- the first call of the space shows which half the space has
    obtain ⟨i, first, hi, hspace, hfirst⟩ := exists_first_call layout hc
    have hhalf := h.half i first _ (answered_iff.mpr ⟨hi, rfl⟩)
    have hinit := (nextFor_of_comesInTime hfirst).2
    have hupper : (first.useInternalSpace == upper) = first.useInternalSpace := hhalf.unique hinit
    refine comesInTime_of_inHalf ?_
    rw [hspace] at hupper
    rw [← hupper]
    exact h.half k call _ (answered_iff.mpr ⟨hc, rfl⟩)
  · intro h
    have hbelow : ∀ k call id, Answered layout calls k call id → InHalf layout call.useInternalSpace id := by
      intro k call id ha
      obtain ⟨hc, rfl⟩ := answered_iff.mp ha
      exact (nextFor_of_comesInTime (h k call hc)).2
    refine ⟨true, fun k call id ha => ?_, fun k call id ha => ?_, fun i j call id hij htakes hi hj => ?_⟩
    · have hlt : id < layout.maxSchedCount := by
        have := hbelow k call id ha
        unfold InHalf at this
        split at this <;> omega
      exact ⟨hlt, fun hres => absurd (layout.maxSchedCount_lt_reserved hres) hlt.not_ge⟩
    · rw [beq_true]
      exact hbelow k call id ha
    · -- no id comes back before the space leaves its half
      obtain ⟨hci, hi⟩ := answered_iff.mp hi
      obtain ⟨hcj, hj⟩ := answered_iff.mp hj
      rw [(nextFor_of_comesInTime (h i call hci)).1] at hi
      rw [(nextFor_of_comesInTime (h j call hcj)).1] at hj
      have := idsTaken_lt hij hci htakes
      omega

theorem idsTaken_replicate (m : Nat) : idsTaken false (⟨true, false⟩ :: replicate m ⟨false, false⟩) = m := by
  simp [idsTaken, countP_replicate]

theorem answered_past_half {layout : TagLayout} {m : Nat} (hm : m + 1 = layout.maxSchedCount / 2) :
    Answered layout (⟨true, false⟩ :: replicate (m + 2) ⟨false, false⟩) (m + 2) ⟨false, false⟩ (m + 1) := by
  have hlt := layout.maxSchedCount_lt
  refine answered_iff.mpr ⟨?_, ?_⟩
  · rw [getElem?_cons_succ, getElem?_replicate_of_lt (Nat.lt_succ_self _)]
  · have htake : (⟨true, false⟩ :: replicate (m + 2) ⟨false, false⟩ : List SchedIdCall).take (m + 2) =
        ⟨true, false⟩ :: replicate m ⟨false, false⟩ ++ [⟨false, false⟩] := by
      rw [take_succ_cons, take_replicate, cons_append, ← replicate_succ',
        Nat.min_eq_left (Nat.le_succ _)]
    have hprev := externalAt layout (⟨true, false⟩ :: replicate m ⟨false, false⟩)
    rw [idsTaken_replicate] at hprev
    have hnext : (after layout (⟨true, false⟩ :: replicate m ⟨false, false⟩)).nextSchedIdExternal = m := by
      rcases hprev with h | h
      · exact h.2
      · omega
    rw [htake, after_concat, nextFor, if_neg Bool.false_ne_true]
    simp only [SchedIds.getSchedId, hnext, Bool.false_eq_true, if_false]
    rw [Nat.mod_eq_of_lt (by omega), if_neg (by omega)]

/-- After one internal schedule, the 2046th collective of a communicator over MPI gets the id of that schedule. -/
theorem schedIds_collide : ∃ calls : List SchedIdCall, calls = ⟨true, false⟩ :: replicate 2046 ⟨false, false⟩ ∧
    Answered .mpi calls 0 ⟨true, false⟩ 2045 ∧ Answered .mpi calls 2046 ⟨false, false⟩ 2045 ∧
    ¬ ∃ upper, SchedIdsSeparate .mpi calls upper := by
  have hfirst : Answered .mpi (⟨true, false⟩ :: replicate 2046 ⟨false, false⟩) 0 ⟨true, false⟩ 2045 := ⟨rfl, rfl⟩
  have hlast : Answered .mpi (⟨true, false⟩ :: replicate 2046 ⟨false, false⟩) 2046 ⟨false, false⟩ 2045 :=
    answered_past_half (m := 2044) (by decide)
  refine ⟨_, rfl, hfirst, hlast, ?_⟩
  rintro ⟨upper, h⟩
  have hsame : (true == upper) = (false == upper) := (h.half _ _ _ hfirst).unique (h.half _ _ _ hlast)
  cases upper <;> cases hsame

end OneCcl
