import Mathlib.Algebra.Order.Ring.Int
import Mathlib.Logic.Relation
import Mathlib.Logic.Function.Basic
import Mathlib.Data.List.Basic

/-!
# Asynchronous programs over channels

A **net** is a finite family of tasks. A task is a list of entries, and every task belongs to a rank;
the tasks of one rank share that rank's memory, and ranks talk over channels. Entries of a task are
started in list order. A started entry runs beside the entries after it, unless an entry between
them is a **barrier**: nothing after a barrier is started before the barrier and everything before it
are done. A task holds a number of credits, one for each entry that is started and not done.

Channels match by posting order: the `k`-th receive posted on a channel takes the `k`-th send posted
on it. The transport may read a posted send at any later time and may deliver what it read at any
later time; whether a send is buffered (`eager`) or waits for its receive is a parameter of the net,
for each send by itself.

`Step` is one move of the net. It says only what may happen; `Async.Plan` says what every run
computes and `Async.Levels` that no run gets stuck.
-/

namespace Async

open Function

theorem lt_of_get {β : Type*} {l : List β} {i : Nat} {x : β} (h : l[i]? = some x) : i < l.length :=
  (List.getElem?_eq_some_iff.mp h).1

/-- What an entry does: a local action on the rank's memory, one end of a channel, a meeting of
several tasks of a rank, or the run of a child task. A receive is delivered (`store`) and then
finished (`finish`): a plain receive finishes with nothing left to do, a receive that also computes
does its computation there. -/
inductive Op (ι χ κ M δ : Type) where
  | act (f : M → M)
  | send (c : χ) (read : M → δ)
  | recv (c : χ) (fits : δ → Bool) (store : δ → M → M) (finish : M → M)
  | sync (k : κ)
  | sub (child : ι)

/-- An entry of a task: what it does, and whether the task waits behind it. -/
structure Entry (ι χ κ M δ : Type) where
  op : Op ι χ κ M δ
  barrier : Bool

/-- How far one entry is: not started, started, its message moved (or its meeting visited), done. -/
inductive Stage where
  | idle
  | posted
  | moved
  | done
  deriving DecidableEq, Repr

/-- A net: its tasks (no other task has a program), their programs, the rank each belongs to, their
credits, and which sends the transport buffers. -/
structure Net (ι ρ χ κ M δ : Type) where
  tasks : List ι
  prog : ι → List (Entry ι χ κ M δ)
  quiet : ∀ t, t ∉ tasks → prog t = []
  rank : ι → ρ
  credits : ι → Nat
  eager : ι → Nat → Bool

/-- A state: each rank's memory, how many entries of each task were started, the stage of the
started ones, what was posted on each channel in posting order, and what the transport has read. -/
structure State (ι ρ χ M δ : Type) where
  mem : ρ → M
  started : ι → Nat
  stage : ι → Nat → Stage
  sends : χ → List (ι × Nat)
  recvs : χ → List (ι × Nat)
  wire : ι → Nat → Option δ

variable {ι ρ χ κ M δ : Type} [DecidableEq ι] [DecidableEq ρ] [DecidableEq χ]

/-! ## States -/

namespace State

/-- The state before any step, over the given memories. -/
def init (mem : ρ → M) : State ι ρ χ M δ where
  mem := mem
  started _ := 0
  stage _ _ := .idle
  sends _ := []
  recvs _ := []
  wire _ _ := none

/-- The stage of an entry, `idle` for one that was not started. -/
def stageAt (s : State ι ρ χ M δ) (x : ι × Nat) : Stage :=
  if x.2 < s.started x.1 then s.stage x.1 x.2 else .idle

def move (s : State ι ρ χ M δ) (x : ι × Nat) (st : Stage) : State ι ρ χ M δ :=
  { s with stage := update s.stage x.1 (update (s.stage x.1) x.2 st) }

/-- Start the next entry of a task, at a stage. -/
def start (s : State ι ρ χ M δ) (t : ι) (st : Stage) : State ι ρ χ M δ :=
  { s.move (t, s.started t) st with started := update s.started t (s.started t + 1) }

def onMem (s : State ι ρ χ M δ) (r : ρ) (f : M → M) : State ι ρ χ M δ :=
  { s with mem := update s.mem r (f (s.mem r)) }

def pushSend (s : State ι ρ χ M δ) (c : χ) (x : ι × Nat) : State ι ρ χ M δ :=
  { s with sends := update s.sends c (s.sends c ++ [x]) }

def pushRecv (s : State ι ρ χ M δ) (c : χ) (x : ι × Nat) : State ι ρ χ M δ :=
  { s with recvs := update s.recvs c (s.recvs c ++ [x]) }

def readOff (s : State ι ρ χ M δ) (x : ι × Nat) (d : δ) : State ι ρ χ M δ :=
  { s with wire := update s.wire x.1 (update (s.wire x.1) x.2 (some d)) }

end State

/-! ## Nets -/

namespace Net

/-- What the `i`-th entry of a task does. -/
def op (N : Net ι ρ χ κ M δ) (x : ι × Nat) : Option (Op ι χ κ M δ) :=
  ((N.prog x.1)[x.2]?).map (·.op)

/-- Whether the `i`-th entry of a task is a barrier. -/
def barrier (N : Net ι ρ χ κ M δ) (x : ι × Nat) : Bool :=
  ((N.prog x.1)[x.2]?).any (·.barrier)

/-- A task no entry starts: it runs from the beginning. -/
def IsRoot (N : Net ι ρ χ κ M δ) (t : ι) : Prop := ∀ x, N.op x ≠ some (.sub t)

/-- A task runs when it is a root, or when the entry that stands for it was started. -/
def Active (N : Net ι ρ χ κ M δ) (s : State ι ρ χ M δ) (t : ι) : Prop :=
  N.IsRoot t ∨ ∃ x, N.op x = some (.sub t) ∧ s.stageAt x = .posted

/-- The entries of a task that hold a credit: started, and not done. -/
def inflight (s : State ι ρ χ M δ) (t : ι) : Nat :=
  (List.range (s.started t)).countP fun i => s.stageAt (t, i) ≠ .done

/-- The next entry of a task may be started: the task runs, everything up to the last barrier is
done, and a credit is left. -/
structure CanStart (N : Net ι ρ χ κ M δ) (s : State ι ρ χ M δ) (t : ι) : Prop where
  active : N.Active s t
  cleared : ∀ b < s.started t, N.barrier (t, b) = true → ∀ j ≤ b, s.stageAt (t, j) = .done
  credit : inflight s t < N.credits t

/-- The `k`-th send and the `k`-th receive posted on a channel belong together. -/
def Matched (s : State ι ρ χ M δ) (c : χ) (x y : ι × Nat) : Prop :=
  ∃ k : Nat, (s.sends c)[k]? = some x ∧ (s.recvs c)[k]? = some y

/-- One move of the net. -/
inductive Step (N : Net ι ρ χ κ M δ) : State ι ρ χ M δ → State ι ρ χ M δ → Prop
  | act {s t f} (hop : N.op (t, s.started t) = some (.act f)) (h : N.CanStart s t) :
      Step N s ((s.start t .done).onMem (N.rank t) f)
  | postSend {s t c read} (hop : N.op (t, s.started t) = some (.send c read)) (h : N.CanStart s t) :
      Step N s ((s.start t .posted).pushSend c (t, s.started t))
  | postRecv {s t c fits store finish}
      (hop : N.op (t, s.started t) = some (.recv c fits store finish)) (h : N.CanStart s t) :
      Step N s ((s.start t .posted).pushRecv c (t, s.started t))
  | postSync {s t k} (hop : N.op (t, s.started t) = some (.sync k)) (h : N.CanStart s t) :
      Step N s (s.start t .posted)
  | postSub {s t t'} (hop : N.op (t, s.started t) = some (.sub t')) (h : N.CanStart s t) :
      Step N s (s.start t .posted)
  /- The transport reads a send: at once when it buffers, else when the receive is there. -/
  | read {s} {x : ι × Nat} {c read} (hop : N.op x = some (.send c read)) (h : s.stageAt x = .posted)
      (hm : N.eager x.1 x.2 = true ∨ ∃ y, Matched s c x y) :
      Step N s ((s.readOff x (read (s.mem (N.rank x.1)))).move x .moved)
  | doneSend {s x c read} (hop : N.op x = some (.send c read)) (h : s.stageAt x = .moved)
      (hm : N.eager x.1 x.2 = true ∨ ∃ y, Matched s c x y ∧ (s.stageAt y = .moved ∨ s.stageAt y = .done)) :
      Step N s (s.move x .done)
  | deliver {s y} {x : ι × Nat} {c fits store finish d}
      (hop : N.op y = some (.recv c fits store finish)) (h : s.stageAt y = .posted)
      (hm : Matched s c x y) (hd : s.wire x.1 x.2 = some d) (hfit : fits d = true) :
      Step N s ((s.onMem (N.rank y.1) (store d)).move y .moved)
  | doneRecv {s y c fits store finish} (hop : N.op y = some (.recv c fits store finish))
      (h : s.stageAt y = .moved) :
      Step N s ((s.onMem (N.rank y.1) finish).move y .done)
  /- A meeting is visited once everything before it in its own task is done. -/
  | visit {s x k} (hop : N.op x = some (.sync k)) (h : s.stageAt x = .posted)
      (hb : ∀ j < x.2, s.stageAt (x.1, j) = .done) :
      Step N s (s.move x .moved)
  | doneSync {s x k} (hop : N.op x = some (.sync k)) (h : s.stageAt x = .moved)
      (hv : ∀ y, N.op y = some (.sync k) → s.stageAt y = .moved ∨ s.stageAt y = .done) :
      Step N s (s.move x .done)
  | doneSub {s x t} (hop : N.op x = some (.sub t)) (h : s.stageAt x = .posted)
      (hc : ∀ j < (N.prog t).length, s.stageAt (t, j) = .done) :
      Step N s (s.move x .done)

/-- The states a net can reach from a memory. -/
def Reach (N : Net ι ρ χ κ M δ) (mem : ρ → M) (s : State ι ρ χ M δ) : Prop :=
  Relation.ReflTransGen N.Step (State.init mem) s

def Final (N : Net ι ρ χ κ M δ) (s : State ι ρ χ M δ) : Prop :=
  ∀ t, ∀ i < (N.prog t).length, s.stageAt (t, i) = .done

/-- **Every run completes, and completes in `Q`**: no run goes on for ever, and a run that can go no
further has done every entry of every task and satisfies `Q`. -/
structure Completes (N : Net ι ρ χ κ M δ) (mem : ρ → M) (Q : State ι ρ χ M δ → Prop) : Prop where
  finite : Acc (fun s' s => N.Step s s') (State.init mem)
  final : ∀ s, N.Reach mem s → (∀ s', ¬ N.Step s s') → N.Final s ∧ Q s

variable {N : Net ι ρ χ κ M δ} {mem : ρ → M} {Q : State ι ρ χ M δ → Prop}

theorem Completes.imp {Q' : State ι ρ χ M δ → Prop} (h : N.Completes mem Q) (hQ : ∀ s, Q s → Q' s) : N.Completes mem Q' :=
  ⟨h.finite, fun s hr hs => ⟨(h.final s hr hs).1, hQ s (h.final s hr hs).2⟩⟩

theorem Completes.exists_run (h : N.Completes mem Q) : ∃ s, N.Reach mem s ∧ (∀ s', ¬ N.Step s s') ∧ Q s := by
  have hend : ∀ s, Acc (fun s' s => N.Step s s') s → N.Reach mem s →
      ∃ s', N.Reach mem s' ∧ ∀ s'', ¬ N.Step s' s'' := by
    intro s hs
    induction hs with
    | intro s _ ih =>
      intro hr
      by_cases hstep : ∃ s', N.Step s s'
      · obtain ⟨s', hs'⟩ := hstep
        exact ih s' hs' (hr.tail hs')
      · exact ⟨s, hr, fun s' hs' => hstep ⟨s', hs'⟩⟩
  obtain ⟨s, hr, hs⟩ := hend _ h.finite .refl
  exact ⟨s, hr, hs, (h.final s hr hs).2⟩

theorem Reach.invariant {I : State ι ρ χ M δ → Prop}
    (h0 : I (State.init mem)) (hstep : ∀ s s', N.Reach mem s → I s → N.Step s s' → I s')
    {s : State ι ρ χ M δ} (h : N.Reach mem s) : I s := by
  induction h with
  | refl => exact h0
  | tail hr hs ih => exact hstep _ _ hr ih hs

end Net

end Async
