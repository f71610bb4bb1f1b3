import OneCcl.Async.CountDown
import OneCcl.Progress.SyncSubscheds

/-!
# Partial schedules meet

The partial schedules run side by side, each on a worker of its own, in any interleaving of the steps of their calls. A
`SYNC` entry of a schedule visits its sync object once in a run, when all before it is complete, and is complete when the
object's counter is at zero. A new run renews the partial schedules one after the other, and only after all of them have
come to their end.
-/

namespace OneCcl

open Function

variable {τ : Type}

/-- Whether the partial schedules are at rest, are being renewed (and how many of them have been), or run. -/
inductive RunPhase where
  | stopped
  | preparing (c : Nat)
  | running
  deriving DecidableEq, Repr

/-- The sync object of the entry at an index. -/
def syncAt (s : OpSched (PartOp τ)) (k : Nat) : Option Nat := s.entries[k]?.bind PartEntry.syncObj

/-- The partial schedules, the counters of the sync objects, and `should_visit` of each `SYNC` entry. -/
structure PartsRun (τ : Type) where
  parts : Nat → OpSched (PartOp τ)
  counter : Nat → Nat
  shouldVisit : Nat → Nat → Bool
  phase : RunPhase

namespace PartsRun

/-- The partial schedules as they were built, with any number of credits. -/
def new (n : Nat) (b : MasterSched τ) (credits : Nat → Nat) : PartsRun τ where
  parts c := ⟨0, .setMaxCredits (credits c), (b.subscheds[c]?.map PartSched.entries).getD [], .ready, []⟩
  counter _ := n
  shouldVisit _ _ := true
  phase := .stopped

/-- `renew` of one partial schedule, with `sync_entry::reset` of its `SYNC` entries. -/
def renewPart (n : Nat) (s : PartsRun τ) (c : Nat) : PartsRun τ where
  parts := update s.parts c (s.parts c).renew
  counter obj := if (s.parts c).entries.any fun e => PartEntry.syncObj e = some obj then n else s.counter obj
  shouldVisit := update s.shouldVisit c fun _ => true
  phase := .preparing (c + 1)

/-- The first half of `sync_entry::update`: the entry visits the sync object, once in a run. -/
def visitSync (s : PartsRun τ) (c : Nat) : Option (PartsRun τ) :=
  match (s.parts c).pc with
  | .inside k =>
    match syncAt (s.parts c) k with
    | some obj =>
      if statusAt (s.parts c).entries k = .started ∧ (s.parts c).startIdx = k ∧ s.shouldVisit c k then
        some { s with
          counter := update s.counter obj (s.counter obj - 1)
          shouldVisit := update s.shouldVisit c (update (s.shouldVisit c) k false) }
      else none
    | none => none
  | _ => none

/-- What the own code of a `SYNC` entry reports: `start()` only starts it, and `update()`, after the visit, looks at the
counter. Other entries report what they like. -/
def mayReport (s : PartsRun τ) (c : Nat) (a : SchedAction) : Bool :=
  match a, (s.parts c).pc with
  | .loop (.ret _ o), .inside k =>
    match syncAt (s.parts c) k with
    | some obj =>
      if statusAt (s.parts c).entries k = .started then
        ¬ ((s.parts c).startIdx = k ∧ s.shouldVisit c k) ∧
          o = if s.counter obj = 0 then EntryStatus.complete else EntryStatus.started
      else o = .started
    | none => true
  | _, _ => true

end PartsRun

/-- What happens: `ccl_sched::start` begins, renews the next partial schedule, and hands them all to the workers; a `SYNC`
entry visits its object; a partial schedule makes a step or is called. -/
inductive PartsAction where
  | start
  | renew
  | go
  | visitSync (c : Nat)
  | part (c : Nat) (a : SchedAction)
  deriving DecidableEq, Repr

namespace PartsRun

/-- One step of `n` partial schedules. -/
def step (n : Nat) (s : PartsRun τ) : PartsAction → Option (PartsRun τ)
  | .start =>
    if s.phase = .stopped ∨ (s.phase = .running ∧ ∀ c < n, (s.parts c).Finished) then
      some { s with phase := .preparing 0 }
    else none
  | .renew =>
    match s.phase with
    | .preparing c => if c < n then some (s.renewPart n c) else none
    | _ => none
  | .go => if s.phase = .preparing n then some { s with phase := .running } else none
  | .visitSync c => if s.phase = .running ∧ c < n then s.visitSync c else none
  | .part c a =>
    if s.phase = .running ∧ c < n ∧ a ≠ .renew ∧ s.mayReport c a then
      ((s.parts c).step a).map fun t => { s with parts := update s.parts c t }
    else none

/-- Any interleaving of the steps, over any number of runs. -/
def Runs (n : Nat) : PartsRun τ → PartsRun τ → Prop :=
  Relation.ReflTransGen fun s s' => ∃ a, s.step n a = some s'

end PartsRun

/-! ### The layout of the partial schedules -/

/-- The shape of a `SYNC` entry. -/
def syncShape (obj : Nat) : Bool × EntryExecMode × Option (PartOp τ × Bool) := (true, .regular, some (.sync obj, false))

/-- Each sync object of `order` has its `SYNC` at one place of each partial schedule, and there are no others. -/
structure PartsLayout (n : Nat) (skel : Nat → List (Bool × EntryExecMode × Option (PartOp τ × Bool))) (order : List Nat)
    (pos : Nat → Nat → Nat) : Prop where
  at_pos : ∀ c < n, ∀ obj ∈ order, (skel c)[pos c obj]? = some (syncShape obj)
  eq_pos : ∀ c < n, ∀ k b m obj x, (skel c)[k]? = some (b, m, some (.sync obj, x)) → obj ∈ order ∧ k = pos c obj

section PartsLayout

variable {n : Nat} {skel : Nat → List (Bool × EntryExecMode × Option (PartOp τ × Bool))} {order : List Nat}
  {pos : Nat → Nat → Nat} {c k obj : Nat} {s : OpSched (PartOp τ)}

theorem getElem?_skeleton : s.skeleton[k]? = s.entries[k]?.map CclEntry.shape := List.getElem?_map

theorem PartsLayout.entry (hl : PartsLayout n skel order pos) (hc : c < n) (hobj : obj ∈ order) (hs : s.skeleton = skel c) :
    ∃ e, s.entries[pos c obj]? = some e ∧ e.barrier = true ∧ e.execMode = .regular ∧ e.body = .op (.sync obj) none := by
  have hat := hl.at_pos c hc obj hobj
  rw [← hs, getElem?_skeleton] at hat
  obtain ⟨e, he, hshape⟩ := Option.map_eq_some_iff.mp hat
  obtain ⟨hbar, hmode, hop⟩ := Prod.mk.inj hshape |>.imp id Prod.mk.inj
  exact ⟨e, he, hbar, hmode, EntryBody.opOf_eq_some.mp hop⟩

theorem PartsLayout.syncAt_pos (hl : PartsLayout n skel order pos) (hc : c < n) (hobj : obj ∈ order)
    (hs : s.skeleton = skel c) :
    syncAt s (pos c obj) = some obj := by
  obtain ⟨e, he, -, -, hb⟩ := hl.entry hc hobj hs
  rw [syncAt, he, Option.bind_some, PartEntry.syncObj, hb]

theorem PartsLayout.pos_of_syncAt (hl : PartsLayout n skel order pos) (hc : c < n) (hs : s.skeleton = skel c)
    (h : syncAt s k = some obj) : obj ∈ order ∧ k = pos c obj := by
  obtain ⟨e, he, hobj⟩ := Option.bind_eq_some_iff.mp h
  unfold PartEntry.syncObj at hobj
  split at hobj
  next obj' copy hb =>
    obtain rfl := Option.some.inj hobj
    refine hl.eq_pos c hc k e.barrier e.execMode obj' copy.isSome ?_
    rw [← hs, getElem?_skeleton, he, Option.map_some, CclEntry.shape, hb]
    rfl
  next => cases hobj

end PartsLayout

/-! ### The invariant -/

def SyncCounted (n : Nat) (pos : Nat → Nat) (obj : Nat) (s : PartsRun τ) : Prop :=
  Async.CountDown n (s.counter obj) (fun c => s.shouldVisit c (pos c))
    (fun c => ∀ i < pos c, (statusAt (s.parts c).entries i).isCompleted)
    fun c => (statusAt (s.parts c).entries (pos c)).isCompleted

/-- What holds in each phase. A partial schedule that has been renewed has its `SYNC` entries and their counters back at
the beginning. -/
def PhaseInv (n : Nat) (order : List Nat) (pos : Nat → Nat → Nat) (s : PartsRun τ) : Prop :=
  match s.phase with
  | .stopped => ∀ c < n, (s.parts c).pc = .ready
  | .preparing d =>
    (∀ c < n, (s.parts c).Renewable) ∧ ∀ c < n, c < d → (∀ k, s.shouldVisit c k = true) ∧
      ∀ obj ∈ order, statusAt (s.parts c).entries (pos c obj) = .notStarted ∧ s.counter obj = n
  | .running => ∀ obj ∈ order, SyncCounted n (fun c => pos c obj) obj s

/-- The invariant of `n` partial schedules. -/
structure PartsInv (n : Nat) (skel : Nat → List (Bool × EntryExecMode × Option (PartOp τ × Bool))) (order : List Nat)
    (pos : Nat → Nat → Nat) (s : PartsRun τ) : Prop where
  good : ∀ c < n, (s.parts c).Everywhere CclSched.Good
  skeleton : ∀ c < n, (s.parts c).skeleton = skel c
  regular : ∀ c < n, ∀ obj ∈ order, statusAt (s.parts c).entries (pos c obj) ≠ .completeOnce
  phase : PhaseInv n order pos s

end OneCcl
