import Mathlib.Algebra.Order.Ring.Int
import Mathlib.Logic.Relation
import Mathlib.Algebra.BigOperators.Group.List.Basic

/-!
# The progress of a schedule

A worker runs a schedule by calling `do_progress` on it again and again. A call goes over the entries from `start_idx` on,
lets each make one step, and stops early at an entry that asks to be tried again or at a barrier. An entry takes a credit
of the schedule's flow control before it starts and returns it when it is complete.

The model takes the loop apart: a step is one visit of an entry, or what happens inside of it. So a state may lie in the
middle of a call, and in the middle of the calls of the schedules inside of it, since a `SUBSCHED` entry makes progress on
a schedule of its own. What an operation reports, and when, is an argument of the step.
-/

namespace OneCcl

/-- `ccl_sched_entry_status`. An entry that has `failed` or is `invalid` throws, and the call does not return. -/
inductive EntryStatus where
  | notStarted
  | again
  | started
  | complete
  | completeOnce
  deriving DecidableEq, Repr

namespace EntryStatus

/-- `sched_entry::is_completed`. -/
def isCompleted : EntryStatus → Bool
  | complete | completeOnce => true
  | _ => false

/-- `status < ccl_sched_entry_status_started`. -/
def isLate : EntryStatus → Bool
  | notStarted | again => true
  | _ => false

/-- What `start()` may leave behind. -/
def startResult : EntryStatus → Bool
  | again | started | complete => true
  | _ => false

/-- What `update()` may leave behind. -/
def updateResult : EntryStatus → Bool
  | started | complete => true
  | _ => false

/-- An entry that is not in a call holds its credit in these states. -/
def credit : EntryStatus → Nat
  | again | started => 1
  | _ => 0

/-- `sched_entry::reset`. -/
def reset : EntryStatus → EntryStatus
  | completeOnce => completeOnce
  | _ => notStarted

theorem reset_cases (st : EntryStatus) : st.reset = notStarted ∨ st.reset = completeOnce := by
  cases st <;> simp [reset]

variable {st : EntryStatus}

theorem not_late_of_completed (h : st.isCompleted) : ¬ st.isLate := by
  cases st <;> simp_all [isCompleted, isLate]

theorem not_late_iff (h : ¬ st.isCompleted) : ¬ st.isLate ↔ st = started := by
  cases st <;> simp_all [isLate, isCompleted]

theorem credit_of_not_completed (h : ¬ st.isCompleted) : st.credit + (if st = notStarted then 1 else 0) = 1 := by
  cases st <;> simp_all [credit, isCompleted]

theorem startResult_of_update {o : EntryStatus} (h : o.updateResult) : o.startResult ∧ o ≠ again := by
  cases o <;> simp_all [updateResult, startResult]

@[simp] theorem reset_credit (st : EntryStatus) : st.reset.credit = 0 := by
  cases st <;> rfl

end EntryStatus

/-- `ccl::flow_control`. -/
structure FlowControl where
  maxCredits : Nat
  minCredits : Nat
  credits : Nat
  deriving DecidableEq, Repr

namespace FlowControl

/-- `flow_control::set_max_credits`. -/
def setMaxCredits (value : Nat) : FlowControl := ⟨value, value, value⟩

/-- `flow_control::take_credit`, and whether it took one; `none` where it throws. -/
def takeCredit (f : FlowControl) : Option (FlowControl × Bool) :=
  if f.credits = 0 then some (f, false)
  else if f.credits - 1 ≤ f.maxCredits then
    some ({ f with credits := f.credits - 1, minCredits := min f.minCredits (f.credits - 1) }, true)
  else none

/-- `flow_control::return_credit`; `none` where it throws. -/
def returnCredit (f : FlowControl) : Option FlowControl :=
  if 0 < f.credits + 1 ∧ f.credits + 1 ≤ f.maxCredits ∧ f.minCredits < f.credits + 1 then
    some { f with credits := f.credits + 1 }
  else none

end FlowControl

/-- `ccl_sched_entry_exec_mode`. -/
inductive EntryExecMode where
  | regular
  | once
  deriving DecidableEq, Repr

/-- Where a schedule is: renewed and without a call, about to visit an entry, in the `start()` or the `update()` of an
entry, or back from a call. -/
inductive LoopPc where
  | ready
  | scan (entryIdx : Nat)
  | inside (entryIdx : Nat)
  | left
  deriving DecidableEq, Repr

/-- `sched_entry`, with what the class of the entry adds to it. -/
structure CclEntry (κ : Type) where
  status : EntryStatus
  barrier : Bool
  execMode : EntryExecMode
  body : κ

/-- `ccl_sched`. `reached` is the history of the current run: the entries that reached the started state, in order. -/
structure CclSched (κ : Type) where
  startIdx : Nat
  flowControl : FlowControl
  entries : List (CclEntry κ)
  pc : LoopPc
  reached : List Nat

/-- What an entry does: an operation, or progress on a schedule of its own. A send may copy its buffer first, by a copy
entry that is not in the list of entries but takes a credit of the same schedule. -/
inductive EntryBody (ω : Type) where
  | op (o : ω) (proxyCopy : Option EntryStatus)
  | subsched (s : CclSched (EntryBody ω))

variable {ω : Type}

/-- An entry of a schedule, and a schedule, whose operations are of type `ω`. -/
abbrev OpEntry (ω : Type) := CclEntry (EntryBody ω)

@[inherit_doc OpEntry]
abbrev OpSched (ω : Type) := CclSched (EntryBody ω)

/-- The end of `sched_entry::do_progress`, after `start()` or `update()` has set the status. -/
def finishEntry (f : FlowControl) (mode : EntryExecMode) (o : EntryStatus) : Option (FlowControl × EntryStatus) :=
  if o = .complete then
    f.returnCredit.map fun f' => (f', if mode = .once then .completeOnce else .complete)
  else some (f, o)

/-- `sched_entry::do_progress` of the copy entry of a send: `c` is what its `start()` or `update()` sets. -/
def progressCopy (f : FlowControl) (st c : EntryStatus) : Option (FlowControl × EntryStatus) :=
  match st with
  | .complete | .completeOnce => some (f, st)
  | .notStarted =>
    f.takeCredit.bind fun r =>
      if r.2 then if c.startResult then finishEntry r.1 .regular c else none
      else some (f, st)
  | .again => if c.startResult then finishEntry f .regular c else none
  | .started => if c.updateResult then finishEntry f .regular c else none

namespace EntryBody

/-- The credit that the copy entry of a send holds. -/
def copyCredit : EntryBody ω → Nat
  | op _ (some st) => st.credit
  | _ => 0

/-- `send_entry::reset` also resets the copy entry. The schedule of a `SUBSCHED` entry is renewed only by its next start. -/
def reset : EntryBody ω → EntryBody ω
  | op o copy => op o (copy.map EntryStatus.reset)
  | subsched s => subsched s

end EntryBody

/-- `sched_entry::reset`. -/
def CclEntry.reset (e : OpEntry ω) : OpEntry ω :=
  { e with status := e.status.reset, body := e.body.reset }

/-- The credits that an entry holds while no call is in it. -/
def CclEntry.credit (e : OpEntry ω) : Nat := e.status.credit + e.body.copyCredit

namespace CclSched

/-- `ccl_sched::renew`. -/
def renew (s : OpSched ω) : OpSched ω :=
  { s with startIdx := 0, entries := s.entries.map CclEntry.reset, pc := .ready, reached := [] }

/-- A call of `do_progress` begins. -/
def call (s : OpSched ω) : OpSched ω := { s with pc := .scan s.startIdx }

/-- The worker takes a schedule out of its queue when `start_idx` has reached the end. -/
def Finished (s : OpSched ω) : Prop := s.pc = .left ∧ s.startIdx = s.entries.length

instance (s : OpSched ω) : Decidable s.Finished := inferInstanceAs (Decidable (_ ∧ _))

/-- A schedule is started only when it is new or its last run is over. -/
def Renewable (s : OpSched ω) : Prop := s.pc = .ready ∨ s.Finished

instance (s : OpSched ω) : Decidable s.Renewable := inferInstanceAs (Decidable (_ ∨ _))

/-- The rest of an iteration of `ccl_sched::do_progress`, after the entry has made its step. -/
def advance (s : OpSched ω) (entryIdx : Nat) (e : OpEntry ω) : OpSched ω :=
  if e.status = .again then { s with pc := .left }
  else if entryIdx = s.startIdx ∧ e.status.isCompleted then
    { s with startIdx := s.startIdx + 1, pc := .scan (entryIdx + 1) }
  else if e.barrier ∧ (¬ e.status.isCompleted ∨ s.startIdx ≠ entryIdx + 1) then { s with pc := .left }
  else { s with pc := .scan (entryIdx + 1) }

/-- The call of `start()` or `update()` of an entry begins. -/
def enter (s : OpSched ω) (f : FlowControl) (entryIdx : Nat) (e : OpEntry ω) (body : EntryBody ω) : OpSched ω :=
  { s with flowControl := f, entries := s.entries.set entryIdx { e with body := body }, pc := .inside entryIdx }

end CclSched

namespace EntryBody

/-- `start()` up to its first wait: a `SUBSCHED` entry renews its schedule and calls `update()`. -/
def start : EntryBody ω → EntryBody ω
  | op o copy => op o copy
  | subsched s => subsched s.renew.call

/-- `update()` up to its first wait: a `SUBSCHED` entry calls `do_progress` of its schedule. -/
def update : EntryBody ω → EntryBody ω
  | op o copy => op o copy
  | subsched s => subsched s.call

/-- The rest of `start()` or `update()`, with what the copy entry (`c`) and the operation (`o`) report: the flow control,
the body and the status that is left. A send whose copy is not complete asks to be tried again. A `SUBSCHED` entry is
complete when its schedule has come to its end. -/
def result (body : EntryBody ω) (f : FlowControl) (late : Bool) (c o : EntryStatus) :
    Option (FlowControl × EntryBody ω × EntryStatus) :=
  match body with
  | op x none => if (if late then o.startResult else o.updateResult) then some (f, op x none, o) else none
  | op x (some st) =>
    if late then
      (progressCopy f st c).bind fun r =>
        if r.2 ≠ .complete then some (r.1, op x (some r.2), .again)
        else if o.startResult then some (r.1, op x (some r.2), o)
        else none
    else if o.updateResult then some (f, op x (some st), o)
    else none
  | subsched s =>
    if s.pc = .left then some (f, subsched s, if s.startIdx = s.entries.length then .complete else .started) else none

end EntryBody

/-- A step inside a call of `do_progress`: the loop goes to an entry, the schedule of a `SUBSCHED` entry makes a step, or
the `start()` or `update()` of an entry returns. -/
inductive LoopAction where
  | visit
  | sub (a : LoopAction)
  | ret (c o : EntryStatus)
  deriving DecidableEq, Repr

namespace CclSched

/-- The head of the loop, and the part of `sched_entry::do_progress` before the entry's own code. -/
def visit (s : OpSched ω) (entryIdx : Nat) : Option (OpSched ω) :=
  match s.entries[entryIdx]? with
  | none => some { s with pc := .left }
  | some e =>
    match e.status with
    | .complete | .completeOnce => some (s.advance entryIdx e)
    | .notStarted =>
      s.flowControl.takeCredit.map fun r =>
        if r.2 then s.enter r.1 entryIdx e e.body.start else s.advance entryIdx e
    | .again => some (s.enter s.flowControl entryIdx e e.body.start)
    | .started => some (s.enter s.flowControl entryIdx e e.body.update)

/-- An entry's own code returns; `sched_entry::do_progress` ends and the loop goes on. -/
def ret (s : OpSched ω) (entryIdx : Nat) (c o : EntryStatus) : Option (OpSched ω) :=
  s.entries[entryIdx]?.bind fun e =>
    (e.body.result s.flowControl e.status.isLate c o).bind fun r =>
      (finishEntry r.1 e.execMode r.2.2).map fun x =>
        let e' : OpEntry ω := { e with status := x.2, body := r.2.1 }
        { s with
          flowControl := x.1
          entries := s.entries.set entryIdx e'
          reached := if e.status.isLate ∧ ¬ x.2.isLate then s.reached ++ [entryIdx] else s.reached }.advance entryIdx e'

/-- A step of a call of `do_progress`. -/
def act (s : OpSched ω) : LoopAction → Option (OpSched ω)
  | .visit =>
    match s.pc with
    | .scan entryIdx => s.visit entryIdx
    | _ => none
  | .sub a =>
    match s.pc with
    | .inside entryIdx =>
      match s.entries[entryIdx]? with
      | some ⟨status, barrier, execMode, .subsched t⟩ =>
        (t.act a).map fun t' => { s with entries := s.entries.set entryIdx ⟨status, barrier, execMode, .subsched t'⟩ }
      | _ => none
    | _ => none
  | .ret c o =>
    match s.pc with
    | .inside entryIdx => s.ret entryIdx c o
    | _ => none

end CclSched

/-- What happens to a schedule: a new run, a call of `do_progress`, a step of the call. -/
inductive SchedAction where
  | renew
  | call
  | loop (a : LoopAction)
  deriving DecidableEq, Repr

/-- A run begins only when the one before is over, and the calls of `do_progress` come one after the other. -/
def CclSched.step (s : OpSched ω) : SchedAction → Option (OpSched ω)
  | .renew => if s.Renewable then some s.renew else none
  | .call => if s.pc = .ready ∨ s.pc = .left then some s.call else none
  | .loop a => s.act a

def CclSched.Run : OpSched ω → OpSched ω → Prop :=
  Relation.ReflTransGen fun s s' => ∃ a, s.step a = some s'

end OneCcl
