import Mathlib.Algebra.Order.Ring.Int
import Mathlib.Data.List.Nodup
import Mathlib.Data.List.Perm.Basic
import Mathlib.Data.List.Range
import Mathlib.Logic.Function.Basic

/-!
# Collectives in any order

`ccl_unordered_coll_manager` lets the ranks call collectives with match ids in different orders. The first call with a match
id takes part in a coordination: all ranks reserve a communicator id, and a service schedule brings the match id that the
coordinator, rank 0, is at. When the service schedule is done, a worker makes the communicator for that match id and starts
the schedules that were postponed for it; on a rank that has not called the collective yet it leaves the communicator id in
`unresolved_comms` for the user's thread to find.

Three maps with a lock each, and two threads. A step is one section under a lock, with what the thread does behind it where
no other thread can see the difference.
-/

namespace OneCcl

open Function

/-- The user's thread in `postpone`: before the first section, in `start_coordination`, before the look at
`unresolved_comms`, and with a communicator id from there before and after `add_comm`. -/
inductive PostponePc where
  | check
  | coordinate
  | look
  | addComm (id : Nat)
  | run (id : Nat)
  deriving DecidableEq, Repr

/-- The worker in `start_post_coordination_actions`: not there yet, after the look at `postponed_scheds` with a miss or a hit,
after `add_comm`, and through. -/
inductive PostActionPc where
  | waits
  | missed
  | found
  | added
  | done
  deriving DecidableEq, Repr

/-- A rank. Schedules have the number of the call. -/
structure UnorderedRank (μ : Type) where
  op : Nat := 0
  pc : PostponePc := .check
  postponedScheds : μ → List Nat := fun _ => []
  matchIdToComm : μ → Option Nat := fun _ => none
  unresolvedComms : μ → Option Nat := fun _ => none
  /-- The match ids that the rank took part in a coordination for. -/
  coordinated : List μ := []
  /-- The post actions of the service schedules, in the order of the coordinations. -/
  service : Nat → PostActionPc := fun _ => .waits
  /-- The schedules that were started, with the communicator id. -/
  started : List (Nat × Nat) := []

/-- `std::unordered_map::emplace`: an entry that is there stays. -/
def emplace {μ : Type} [DecidableEq μ] (map : μ → Option Nat) (m : μ) (id : Nat) : μ → Option Nat :=
  update map m (some ((map m).getD id))

section

variable {μ : Type} [DecidableEq μ]

namespace UnorderedRank

variable (x : UnorderedRank μ)

/-- `run_sched` for the user's current call, which is then over. -/
def runSched (id : Nat) : UnorderedRank μ :=
  { x with started := x.started ++ [(x.op, id)], op := x.op + 1, pc := .check }

/-- The next section of `postpone`, for the match id of the call. `arrived`: all ranks are in `create_comm_id`, or past it. -/
def postpone (coordinator arrived : Bool) (m : μ) : Option (UnorderedRank μ) :=
  match x.pc with
  | .check =>
    match x.matchIdToComm m with
    | some id => some (x.runSched id)
    | none =>
      let scheds := x.postponedScheds m ++ [x.op]
      if 1 < scheds.length then
        some { x with postponedScheds := update x.postponedScheds m scheds, op := x.op + 1 }
      else some { x with postponedScheds := update x.postponedScheds m scheds, pc := .coordinate }
  | .coordinate =>
    if arrived then
      if coordinator then some { x with coordinated := x.coordinated ++ [m], op := x.op + 1, pc := .check }
      else some { x with coordinated := x.coordinated ++ [m], pc := .look }
    else none
  | .look =>
    match x.unresolvedComms m with
    | some id => some { x with unresolvedComms := update x.unresolvedComms m none, pc := .addComm id }
    | none => some { x with op := x.op + 1, pc := .check }
  | .addComm id => some { x with matchIdToComm := emplace x.matchIdToComm m id, pc := .run id }
  | .run id => some (x.runSched id)

/-- The next section of `start_post_coordination_actions` for the `k`-th coordination, which brought the match id. A
coordinator without a postponed schedule throws. -/
def postAction (coordinator : Bool) (k : Nat) (m : μ) (id : Nat) : Option (UnorderedRank μ) :=
  match x.service k with
  | .waits =>
    if x.postponedScheds m ≠ [] then some { x with service := update x.service k .found }
    else if coordinator then none
    else some { x with service := update x.service k .missed }
  | .missed =>
    some { x with unresolvedComms := emplace x.unresolvedComms m id, service := update x.service k .done }
  | .found =>
    some { x with matchIdToComm := emplace x.matchIdToComm m id, service := update x.service k .added }
  | .added =>
    some { x with
      started := x.started ++ (x.postponedScheds m).map fun op => (op, id),
      postponedScheds := update x.postponedScheds m [], service := update x.service k .done }
  | .done => none

end UnorderedRank

/-- A step of the user's thread of a rank, or of a worker there for one of the service schedules. -/
inductive UnorderedAction (n : Nat) where
  | user (r : Fin (n + 1))
  | worker (r : Fin (n + 1)) (k : Nat)
  deriving DecidableEq, Repr

variable {n : Nat} (calls : Fin (n + 1) → List μ) (commId : Nat → Nat)

/-- All ranks have come to the coordination that the rank is at. -/
def arrived (s : Fin (n + 1) → UnorderedRank μ) (r : Fin (n + 1)) : Bool :=
  decide (∀ r', (s r).coordinated.length < (s r').coordinated.length ∨
    (s r).coordinated.length = (s r').coordinated.length ∧ (s r').pc = .coordinate)

/-- One step of all ranks. Every rank calls collectives with the given match ids, one after another; the ids that the
coordinations reserve are the same on all ranks. A service schedule is done when the rank and the coordinator have started
it. -/
def unorderedStep (s : Fin (n + 1) → UnorderedRank μ) : UnorderedAction n → Option (Fin (n + 1) → UnorderedRank μ)
  | .user r => do
    let m ← (calls r)[(s r).op]?
    let x ← (s r).postpone (r == 0) (arrived s r) m
    return update s r x
  | .worker r k =>
    if k < (s r).coordinated.length then do
      let m ← (s 0).coordinated[k]?
      let x ← (s r).postAction (r == 0) k m (commId k)
      return update s r x
    else none

/-- The user's thread does not look at `unresolved_comms` while a worker that has missed the schedule of the match id is on its
way there. -/
def NoLateLook (s : Fin (n + 1) → UnorderedRank μ) : UnorderedAction n → Prop
  | .user r => (s r).pc = .look → ∀ k m, (calls r)[(s r).op]? = some m → (s 0).coordinated[k]? = some m →
      (s r).service k ≠ .missed
  | .worker _ _ => True

instance (s : Fin (n + 1) → UnorderedRank μ) (action : UnorderedAction n) : Decidable (NoLateLook calls s action) :=
  match action with
  | .worker _ _ => isTrue trivial
  | .user r =>
    decidable_of_iff ((s r).pc = .look → ∀ k < (s 0).coordinated.length,
      (calls r)[(s r).op]? = (s 0).coordinated[k]? → (s r).service k ≠ .missed)
      ⟨fun h hpc k _ hm hk => h hpc k (List.getElem?_eq_some_iff.mp hk).1 (hm.trans hk.symm), fun h hpc k hk heq =>
        h hpc k _ (heq.trans (List.getElem?_eq_getElem hk)) (List.getElem?_eq_getElem hk)⟩

/-- The order in which the coordinator has coordinated the match ids. -/
abbrev coordinatorOrder (s : Fin (n + 1) → UnorderedRank μ) : List μ := (s 0).coordinated

/-- Runs in which every step meets the condition. -/
inductive UnorderedRun (ok : (Fin (n + 1) → UnorderedRank μ) → UnorderedAction n → Prop) :
    List (UnorderedAction n) → (Fin (n + 1) → UnorderedRank μ) → Prop
  | nil : UnorderedRun ok [] fun _ => {}
  | snoc {actions : List (UnorderedAction n)} {s s' : Fin (n + 1) → UnorderedRank μ} {action : UnorderedAction n}
    (hrun : UnorderedRun ok actions s) (hok : ok s action) (hstep : unorderedStep calls commId s action = some s') :
    UnorderedRun ok (actions ++ [action]) s'

end

end OneCcl
