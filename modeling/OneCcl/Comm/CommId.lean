import Mathlib.Algebra.Order.Ring.Int
import Mathlib.Data.List.Perm.Basic
import Mathlib.Logic.Function.Basic
import Mathlib.Logic.Relation

/-!
# Communicator ids

Each process has a map of the communicator ids that are free on it; it belongs to the transport, which lives as long as
the process has communicators. The members of a new communicator gather their maps and take the lowest id that is free on
all of them. The communicator of the transport layer that took the id is then copied: a new communicator takes one id for
itself and one for the copy, a split hands its own id over to the copy, and a clone copies a communicator with an id that
was reserved before. A destroyed communicator gives back the id it has, if any.

The map is locked from when a process sends it until it has taken the id, so taking an id is one step of all members.
-/

namespace OneCcl

/-- `atl_comm_id_storage::max_comm_id`. -/
@[irreducible] def maxCommId : Nat := 1024

/-- An `atl_base_comm` of a process: the communicator it is of, and its `comm_id` (`none` for `invalid_comm_id`). -/
structure AtlBaseComm where
  name : Nat
  commId : Option Nat
  deriving DecidableEq, Repr

/-- An id that has been taken for communicator `name`, by a call of `create_comm_id` on communicator `on`. -/
structure ReservedId where
  name : Nat
  id : Nat
  on : Nat
  deriving DecidableEq, Repr

/-- What `atl_base_comm` keeps in a process: whether there is a transport, its map of free ids, `comm_count`, the
communicators, and the ids that have been taken and are not yet those of a communicator. -/
structure CommProcess where
  transport : Bool
  free : Nat → Bool
  commCount : Nat
  comms : List AtlBaseComm
  reserved : List ReservedId

namespace CommProcess

/-- A process before its first communicator. -/
def new : CommProcess := ⟨false, fun _ => true, 0, [], []⟩

/-- The transport is made with its first communicator, and all ids are free then. -/
def initTransport (p : CommProcess) : CommProcess :=
  if p.transport then p else { p with transport := true, free := fun _ => true }

/-- `atl_comm_id_storage::acquire`. -/
def acquire (p : CommProcess) (id : Nat) : CommProcess := { p with free := Function.update p.free id false }

/-- `atl_comm_id_storage::release`. -/
def release (p : CommProcess) : Option Nat → CommProcess
  | none => p
  | some id => { p with free := Function.update p.free id true }

/-- The end of `atl_base_comm::~atl_base_comm`: `comm_count` is a `size_t`, and at zero the transport goes. -/
def dropCount (p : CommProcess) : CommProcess :=
  let count := if p.commCount = 0 then 2 ^ 64 - 1 else p.commCount - 1
  { p with commCount := count, transport := p.transport && decide (count ≠ 0) }

/-- The constructor of an ATL communicator after it has its id. -/
def construct (p : CommProcess) (name id : Nat) : CommProcess :=
  { p.acquire id with commCount := p.commCount + 1, comms := p.comms ++ [⟨name, some id⟩] }

def reserve (p : CommProcess) (name id on : Nat) : CommProcess :=
  { p.acquire id with reserved := p.reserved ++ [⟨name, id, on⟩] }

/-- `ccl_internal_comm`: a copy of the `i`th communicator gets the name and the id, and the copied one loses the id if it
is its own. -/
def internalComm (p : CommProcess) (i : Nat) (base : AtlBaseComm) (name id : Nat) (reserved : List ReservedId) :
    CommProcess :=
  { p with
    commCount := p.commCount + 1
    comms := p.comms.set i { base with commId := if base.commId = some id then none else base.commId } ++ [⟨name, some id⟩]
    reserved := reserved }

/-- `atl_base_comm::~atl_base_comm` of the `i`th communicator. An id that was reserved on a communicator is not used after
the communicator is gone. -/
def destroy (p : CommProcess) (i : Nat) (c : AtlBaseComm) : CommProcess :=
  { (p.release c.commId).dropCount with
    comms := p.comms.eraseIdx i
    reserved := p.reserved.filter fun r => (p.comms.eraseIdx i).any fun c => c.name = r.on }

/-- The ids that communicators have or will have. -/
def ids (p : CommProcess) : List Nat := p.comms.filterMap AtlBaseComm.commId ++ p.reserved.map ReservedId.id

end CommProcess

/-- All processes, the members of each communicator, and the number of the next communicator. -/
structure CommSystem where
  procs : Nat → CommProcess
  members : Nat → List Nat
  next : Nat

/-- `atl_base_comm::create_comm_id`: the lowest id that is free on all members; `none` where it throws. -/
def createCommId (procs : Nat → CommProcess) (members : List Nat) : Option Nat :=
  (List.range maxCommId).find? fun id => members.all fun q => (procs q).free id

/-- What happens: the members construct an ATL communicator (for a new communicator or for a split), or take an id on a
communicator they have; a process copies its `i`th communicator with the communicator's own id or with the `j`th
reserved one, or destroys it. -/
inductive CommAction where
  | atlComm (isNew : Bool) (members : List Nat)
  | createCommId (name : Nat)
  | internalComm (q i : Nat) (j : Option Nat)
  | destroy (q i : Nat)
  deriving DecidableEq, Repr

namespace CommSystem

def new : CommSystem := ⟨fun _ => .new, fun _ => [], 0⟩

/-- The members have a transport before they take the id. -/
def inited (s : CommSystem) (isNew : Bool) (members : List Nat) (q : Nat) : CommProcess :=
  if isNew ∧ q ∈ members then (s.procs q).initTransport else s.procs q

/-- The constructor of an ATL communicator. When `create_comm_id` throws in it, the destructor of the base class still
takes one off `comm_count`. -/
def atlComm (s : CommSystem) (isNew : Bool) (members : List Nat) : CommSystem :=
  match OneCcl.createCommId (s.inited isNew members) members with
  | some id =>
    { procs := fun q => if q ∈ members then (s.inited isNew members q).construct s.next id else s.inited isNew members q
      members := Function.update s.members s.next members
      next := s.next + 1 }
  | none => { s with procs := fun q => if q ∈ members then (s.inited isNew members q).dropCount else s.procs q }

/-- `create_comm_id` on a communicator; when it throws nothing has changed. -/
def createCommId (s : CommSystem) (name : Nat) : CommSystem :=
  match OneCcl.createCommId s.procs (s.members name) with
  | some id =>
    { procs := fun q => if q ∈ s.members name then (s.procs q).reserve s.next id name else s.procs q
      members := Function.update s.members s.next (s.members name)
      next := s.next + 1 }
  | none => s

def set (s : CommSystem) (q : Nat) (p : CommProcess) : CommSystem := { s with procs := Function.update s.procs q p }

/-- One step. The members of a split have a transport, and those of a communicator have the communicator; without a
transport a destructor would not come back. -/
def step (s : CommSystem) : CommAction → Option CommSystem
  | .atlComm isNew members =>
    if isNew ∨ members.all fun q => (s.procs q).transport then some (s.atlComm isNew members) else none
  | .createCommId name =>
    if (s.members name).all fun q => (s.procs q).comms.any fun c => c.name = name then some (s.createCommId name)
    else none
  | .internalComm q i j =>
    (s.procs q).comms[i]?.bind fun base =>
      match j with
      | none => base.commId.map fun id => s.set q ((s.procs q).internalComm i base base.name id (s.procs q).reserved)
      | some j => (s.procs q).reserved[j]?.map fun r =>
          s.set q ((s.procs q).internalComm i base r.name r.id ((s.procs q).reserved.eraseIdx j))
  | .destroy q i =>
    if (s.procs q).transport then (s.procs q).comms[i]?.map fun c => s.set q ((s.procs q).destroy i c) else none

/-- An ATL communicator is constructed only when an id is free on all its members. -/
def Served (s : CommSystem) : CommAction → Prop
  | .atlComm isNew members => ∃ id < maxCommId, ∀ q ∈ members, (s.inited isNew members q).free id = true
  | _ => True

/-- Any sequence of steps that meet a condition. -/
def Run (ok : CommSystem → CommAction → Prop) : CommSystem → CommSystem → Prop :=
  Relation.ReflTransGen fun s s' => ∃ a, ok s a ∧ s.step a = some s'

/-- The members of a communicator have the same id; the communicators of a process have different ids; and a destroyed
communicator gives back an id that is taken before and free afterwards, and that no communicator of the process has or will
have then. -/
structure SafeIds (s : CommSystem) : Prop where
  same : ∀ q q' name id id', ⟨name, some id⟩ ∈ (s.procs q).comms → ⟨name, some id'⟩ ∈ (s.procs q').comms → id = id'
  distinct : ∀ q, ((s.procs q).comms.filterMap AtlBaseComm.commId).Nodup
  release : ∀ q i s' c id, s.step (.destroy q i) = some s' → (s.procs q).comms[i]? = some c → c.commId = some id →
    (s.procs q).free id = false ∧ (s'.procs q).free id = true ∧ id ∉ (s'.procs q).ids

end CommSystem

end OneCcl
