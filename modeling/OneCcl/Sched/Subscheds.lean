import OneCcl.Sched.Tasks

/-!
# Partial schedules

The parallelizer splits a collective over partial schedules of one main schedule. `MainSched` is what a builder sees of
it: the partial schedules, which it fills one by one, and `sync_subscheds`, which lets them meet.

A schedule may also run others of its own, by `SUBSCHED` entries. `ParentSched` is such a schedule with the schedules its
entries have built.
-/

namespace OneCcl

open List

/-- A schedule with partial schedules, and how many sync objects it has made. -/
structure MainSched where
  subscheds : List Sched
  syncs : Nat
  deriving DecidableEq, Repr, Inhabited

/-- The last entry of a schedule is a `SYNC`. -/
def Sched.endsInSync (s : Sched) : Bool :=
  match s.entries.getLast? with
  | some ⟨.sync _, _⟩ => true
  | _ => false

/-- `entry_factory::create<sync_entry>`: the entry is a barrier. -/
def Sched.createSync (s : Sched) (obj : Nat) : Sched := (s.create (.sync obj)).addBarrier

@[simp] theorem Sched.createSync_entries (s : Sched) (obj : Nat) :
    (s.createSync obj).entries = s.entries ++ [⟨.sync obj, true⟩] := Sched.addBarrier_create_entries ..

namespace MainSched

/-- A main schedule with `p` new partial schedules. -/
def new (p : Nat) : MainSched := ⟨(range p).map Sched.new, 0⟩

def sub (s : MainSched) (c : Nat) : Sched := s.subscheds[c]?.getD (.new c)

/-- `ccl_sched::sync_subscheds`: throws without partial schedules, and does nothing when all of them end in a `SYNC`. -/
def syncSubscheds (s : MainSched) : Option MainSched :=
  if s.subscheds = [] then none
  else if s.subscheds.all (·.endsInSync) then some s
  else some ⟨s.subscheds.map (·.createSync s.syncs), s.syncs + 1⟩

def Holds (s : MainSched) (p : Nat) (entries : Nat → List SchedEntry) : Prop :=
  s.subscheds.length = p ∧ ∀ c < p, (s.sub c).entries = entries c

theorem new_holds (p : Nat) : (new p).Holds p fun _ => [] := by
  refine ⟨by simp [new], fun c hc => ?_⟩
  simp [new, sub, hc, Sched.new]

variable {s : MainSched} {p : Nat} {entries : Nat → List SchedEntry}

theorem Holds.get (h : s.Holds p entries) {c : Nat} {x : Sched} (hx : s.subscheds[c]? = some x) :
    c < p ∧ x.entries = entries c := by
  have hc : c < p := h.1 ▸ (Async.lt_of_get hx)
  have := h.2 c hc
  rw [sub, hx] at this
  exact ⟨hc, this⟩

theorem Holds.mapIdx (h : s.Holds p entries) {f : Nat → Sched → Sched} {entries' : Nat → List SchedEntry}
    (hf : ∀ c < p, ∀ x : Sched, x.entries = entries c → (f c x).entries = entries' c) (k : Nat) :
    MainSched.Holds ⟨s.subscheds.mapIdx f, k⟩ p entries' := by
  refine ⟨by rw [length_mapIdx, h.1], fun c hc => ?_⟩
  have hlt : c < s.subscheds.length := h.1.symm ▸ hc
  have hx := (h.get (getElem?_eq_getElem hlt)).2
  show ((s.subscheds.mapIdx f)[c]?.getD _).entries = _
  rw [getElem?_mapIdx, getElem?_eq_getElem hlt]
  exact hf c hc _ hx

theorem Holds.modifyHead (h : s.Holds p entries) {f : Sched → Sched} {l : List SchedEntry}
    (hf : ∀ x : Sched, (f x).entries = x.entries ++ l) (k : Nat) :
    MainSched.Holds ⟨s.subscheds.modifyHead f, k⟩ p fun c => entries c ++ if c = 0 then l else [] := by
  have hmap : s.subscheds.modifyHead f = s.subscheds.mapIdx fun c x => if c = 0 then f x else x := by
    refine ext_getElem? fun i => ?_
    cases s.subscheds with
    | nil => simp
    | cons x xs => cases i <;> simp
  rw [hmap]
  refine h.mapIdx (fun c _ x hx => ?_) k
  split
  · rw [hf, hx]
  · rw [hx, append_nil]

theorem Holds.syncSubscheds (h : s.Holds p entries) {c : Nat} (hc : c < p)
    (hlast : ∀ e ∈ (entries c).getLast?, ∀ k, e.kind ≠ .sync k) : ∃ s', s.syncSubscheds = some s' ∧ s'.syncs = s.syncs + 1 ∧
      s'.Holds p fun c => entries c ++ [⟨.sync s.syncs, true⟩] := by
  have hlt : c < s.subscheds.length := h.1.symm ▸ hc
  have hx := (h.get (getElem?_eq_getElem hlt)).2
  have hends : (s.subscheds[c]).endsInSync = false := by
    unfold Sched.endsInSync
    rw [hx]
    split
    next k b he => exact absurd rfl (hlast _ he k)
    next => rfl
  have hne : s.subscheds ≠ [] := ne_nil_of_length_pos (Nat.zero_lt_of_lt hlt)
  have hall : ¬ s.subscheds.all (·.endsInSync) = true := by
    intro hall
    have := all_eq_true.mp hall _ (getElem_mem hlt)
    rw [hends] at this
    cases this
  refine ⟨_, (if_neg hne).trans (if_neg hall), rfl, ?_⟩
  have hmap : s.subscheds.map (·.createSync s.syncs) = s.subscheds.mapIdx fun _ x => x.createSync s.syncs :=
    ext_getElem? fun i => by rw [getElem?_map, getElem?_mapIdx]
  rw [hmap]
  exact h.mapIdx (fun c hc x hx => by rw [Sched.createSync_entries, hx]) _

theorem Holds.syncSubscheds_again (h : s.Holds p entries) (hp : 0 < p) {k : Nat}
    (hlast : ∀ c < p, (entries c).getLast? = some ⟨.sync k, true⟩) : s.syncSubscheds = some s := by
  have hne : s.subscheds ≠ [] := ne_nil_of_length_pos (h.1.symm ▸ hp)
  refine (if_neg hne).trans (if_pos (all_eq_true.mpr fun x hx => ?_))
  obtain ⟨c, hc⟩ := getElem?_of_mem hx
  obtain ⟨hlt, hx⟩ := h.get hc
  unfold Sched.endsInSync
  rw [hx, hlast c hlt]

end MainSched

/-! ## Schedules that an entry builds -/

/-- A schedule with the schedules its `SUBSCHED` entries build. -/
structure ParentSched where
  sched : Sched
  children : List Sched
  deriving DecidableEq, Repr

instance : Inhabited ParentSched := ⟨⟨.new 0, []⟩⟩

namespace ParentSched

/-- `entry_factory::create<subsched_entry>`: the entry runs a schedule with the given operation id, which the function
fills. Schedule `0` being the parent, the others are numbered by their operation ids. -/
def createSubsched (s : ParentSched) (opId : Nat) (fill : Sched → Option Sched) : Option ParentSched := do
  let child ← fill (.new (opId + 1))
  return ⟨s.sched.create (.subsched (opId + 1)), s.children ++ [child]⟩

def get (s : ParentSched) (c : Nat) : Sched :=
  if c = 0 then s.sched else (s.children.find? (·.num = c)).getD (.new c)

theorem get_zero (s : ParentSched) : s.get 0 = s.sched := if_pos rfl

theorem get_child {s : ParentSched} {x : Sched} (hx : x ∈ s.children) (hnum : 0 < x.num)
    (hone : ∀ y ∈ s.children, y.num = x.num → y = x) : s.get x.num = x := by
  have hfind : s.children.find? (·.num = x.num) = some x := by
    cases h : s.children.find? (·.num = x.num) with
    | none => exact absurd (decide_eq_true rfl) (find?_eq_none.mp h x hx)
    | some y =>
      have hy := find?_some h
      rw [hone y (mem_of_find?_eq_some h) (of_decide_eq_true hy)]
  rw [get, if_neg hnum.ne', hfind, Option.getD_some]

end ParentSched

end OneCcl
