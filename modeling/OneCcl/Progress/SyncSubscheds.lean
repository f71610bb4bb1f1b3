import Mathlib.Data.List.Nodup
import OneCcl.Progress.Frame
import OneCcl.Sched.Subscheds

/-!
# Building partial schedules that meet

The partial schedules of a collective are filled one by one, at the back or at the front, and `sync_subscheds` gives each
of them a `SYNC` entry of one sync object, unless all of them have a `SYNC` at that end already. Whatever is added and
where, the `SYNC` entries of all partial schedules are those of the same sync objects in the same order, so that the
`SYNC` a call leaves out is the same one for all of them.

The builders of the collectives only add at the back: their `MainSched` is the `MasterSched` in that mode
(`MainSched.toMaster_syncSubscheds`).
-/

namespace OneCcl

open List

variable {τ : Type}

/-- What an entry of a partial schedule does: something of its own, or it waits at a sync object. -/
inductive PartOp (τ : Type) where
  | plain (o : τ)
  | sync (obj : Nat)

/-- `ccl_sched_add_mode`. -/
inductive AddMode where
  | front
  | back
  deriving DecidableEq, Repr

abbrev PartEntry (τ : Type) := OpEntry (PartOp τ)

namespace PartEntry

/-- `sync_entry::sync_entry`. -/
def newSync (obj : Nat) : PartEntry τ := ⟨.notStarted, true, .regular, .op (.sync obj) none⟩

/-- A new entry with an operation of its own, perhaps a send with a copy entry. -/
def newOp (barrier : Bool) (mode : EntryExecMode) (o : τ) (proxyCopy : Bool) : PartEntry τ :=
  ⟨.notStarted, barrier, mode, .op (.plain o) (if proxyCopy then some .notStarted else none)⟩

def newSubsched (barrier : Bool) (mode : EntryExecMode) (t : OpSched (PartOp τ)) : PartEntry τ :=
  ⟨.notStarted, barrier, mode, .subsched t⟩

/-- The sync object of an entry; it has one when its `name()` is `SYNC`. -/
def syncObj (e : PartEntry τ) : Option Nat :=
  match e.body with
  | .op (.sync obj) _ => some obj
  | _ => none

/-- `sched_entry::make_barrier`. -/
def makeBarrier (e : PartEntry τ) : PartEntry τ := { e with barrier := true }

@[simp] theorem syncObj_newSync (obj : Nat) : (newSync obj : PartEntry τ).syncObj = some obj := rfl

@[simp] theorem syncObj_makeBarrier (e : PartEntry τ) : e.makeBarrier.syncObj = e.syncObj := rfl

end PartEntry

open PartEntry

/-- A partial schedule while it is built. -/
structure PartSched (τ : Type) where
  entries : List (PartEntry τ)
  addMode : AddMode

open PartSched

namespace PartSched

/-- `ccl_sched::add_entry`. -/
def addEntry (s : PartSched τ) (e : PartEntry τ) : PartSched τ :=
  match s.addMode with
  | .back => { s with entries := s.entries ++ [e] }
  | .front => { s with entries := e :: s.entries }

/-- `ccl_sched::add_barrier`. -/
def addBarrier (s : PartSched τ) : PartSched τ :=
  match s.addMode with
  | .back => { s with entries := s.entries.modify (s.entries.length - 1) makeBarrier }
  | .front => { s with entries := s.entries.modify 0 makeBarrier }

/-- The entry at the end where entries are added. -/
def tailEntry (s : PartSched τ) : Option (PartEntry τ) :=
  match s.addMode with
  | .back => s.entries.getLast?
  | .front => s.entries.head?

/-- The sync objects of a partial schedule, in the order of its entries. -/
def syncs (s : PartSched τ) : List Nat := s.entries.filterMap syncObj

end PartSched

/-- A schedule and its partial schedules. `syncs` counts the sync objects that have been made. -/
structure MasterSched (τ : Type) where
  subscheds : List (PartSched τ)
  syncs : Nat

namespace MasterSched

/-- A schedule with `n` new partial schedules. -/
def new (n : Nat) : MasterSched τ := ⟨replicate n ⟨[], .back⟩, 0⟩

/-- `ccl_sched::sync_subscheds`; `none` where it throws. -/
def syncSubscheds (s : MasterSched τ) : Option (MasterSched τ) :=
  match s.subscheds with
  | [] => none
  | p :: _ =>
    if s.subscheds.all fun c => c.addMode = p.addMode then
      if s.subscheds.all fun c => c.tailEntry.any fun e => e.syncObj.isSome then some s
      else some ⟨s.subscheds.map fun c => c.addEntry (.newSync s.syncs), s.syncs + 1⟩
    else none

end MasterSched

/-- What a builder does to partial schedule `c`: it creates an entry of its own or one that runs a new schedule, makes a
barrier, or changes the add mode; or it lets all partial schedules meet. -/
inductive BuildAction (τ : Type) where
  | addOp (c : Nat) (barrier : Bool) (mode : EntryExecMode) (o : τ) (proxyCopy : Bool)
  | addSubsched (c : Nat) (barrier : Bool) (mode : EntryExecMode)
      (t : { t : OpSched (PartOp τ) // t.Everywhere CclSched.NewSched })
  | addBarrier (c : Nat)
  | setAddMode (c : Nat) (mode : AddMode)
  | syncSubscheds

def MasterSched.build (s : MasterSched τ) : BuildAction τ → Option (MasterSched τ)
  | .addOp c barrier mode o proxyCopy =>
    some { s with subscheds := s.subscheds.modify c fun p => p.addEntry (.newOp barrier mode o proxyCopy) }
  | .addSubsched c barrier mode t =>
    some { s with subscheds := s.subscheds.modify c fun p => p.addEntry (.newSubsched barrier mode t.1) }
  | .addBarrier c => some { s with subscheds := s.subscheds.modify c addBarrier }
  | .setAddMode c mode => some { s with subscheds := s.subscheds.modify c fun p => { p with addMode := mode } }
  | .syncSubscheds => s.syncSubscheds

/-! ### All partial schedules have the same sync objects -/

/-- A new entry, and a `SYNC` is as its constructor makes it. -/
structure PartEntry.New (e : PartEntry τ) : Prop where
  status : e.status = .notStarted
  copy : e.body.copyCredit = 0
  inner : ∀ t, e.body = .subsched t → t.Everywhere CclSched.NewSched
  sync : ∀ obj, e.syncObj = some obj → e = .newSync obj

theorem PartEntry.New.makeBarrier {e : PartEntry τ} (h : e.New) : e.makeBarrier.New := by
  refine ⟨h.status, h.copy, h.inner, fun obj hobj => ?_⟩
  rw [h.sync obj hobj]
  rfl

/-- The entries of a partial schedule are new, and its sync objects are those of a list. -/
structure PartSched.Built (order : List Nat) (s : PartSched τ) : Prop where
  entries : ∀ e ∈ s.entries, e.New
  syncs : s.syncs = order

namespace PartSched

variable {order : List Nat} {s : PartSched τ} {e : PartEntry τ}

theorem mem_addEntry {x : PartEntry τ} (hx : x ∈ (s.addEntry e).entries) : x = e ∨ x ∈ s.entries := by
  cases hm : s.addMode with
  | back => simpa [addEntry, hm, or_comm] using hx
  | front => simpa [addEntry, hm] using hx

theorem Built.addEntry (h : s.Built order) (he : e.New) (hsync : e.syncObj = none) : (s.addEntry e).Built order := by
  refine ⟨fun x hx => ?_, ?_⟩
  · rcases mem_addEntry hx with rfl | hx
    · exact he
    · exact h.entries x hx
  · rw [← h.syncs]
    cases hm : s.addMode <;> simp [PartSched.syncs, PartSched.addEntry, hm, hsync]

theorem filterMap_modify {α β : Type} {f : α → Option β} {g : α → α} (hfg : ∀ x, f (g x) = f x) (l : List α) (i : Nat) :
    (l.modify i g).filterMap f = l.filterMap f := by
  induction l generalizing i with
  | nil => simp
  | cons x l ih => cases i <;> simp [filterMap_cons, hfg, ih]

theorem Built.addBarrier (h : s.Built order) : s.addBarrier.Built order := by
  have hmem : ∀ i, ∀ x ∈ s.entries.modify i makeBarrier, x.New := by
    intro i x hx
    obtain ⟨j, hj⟩ := getElem?_of_mem hx
    rw [getElem?_modify] at hj
    obtain ⟨y, hy, rfl⟩ := Option.map_eq_some_iff.mp hj
    have hnew := h.entries y (mem_of_getElem? hy)
    split
    · exact hnew.makeBarrier
    · exact hnew
  have hsync : ∀ i, (s.entries.modify i makeBarrier).filterMap syncObj = order := fun i =>
    (filterMap_modify syncObj_makeBarrier s.entries i).trans h.syncs
  unfold PartSched.addBarrier
  split
  · exact ⟨hmem _, hsync _⟩
  · exact ⟨hmem _, hsync _⟩

/-- The sync objects after a `SYNC` has been added. -/
def withSync (mode : AddMode) (order : List Nat) (obj : Nat) : List Nat :=
  match mode with
  | .back => order ++ [obj]
  | .front => obj :: order

theorem newSync_new (obj : Nat) : (newSync obj : PartEntry τ).New :=
  ⟨rfl, rfl, nofun, fun _ h => by rw [← Option.some.inj h]⟩

theorem Built.addSync (h : s.Built order) (obj : Nat) :
    (s.addEntry (.newSync obj)).Built (withSync s.addMode order obj) := by
  refine ⟨fun x hx => ?_, ?_⟩
  · rcases mem_addEntry hx with rfl | hx
    · exact newSync_new obj
    · exact h.entries x hx
  · rw [← h.syncs]
    cases hm : s.addMode <;> simp [PartSched.syncs, PartSched.addEntry, withSync, hm]

theorem mem_of_tailEntry (he : s.tailEntry = some e) : e ∈ s.entries := by
  unfold tailEntry at he
  split at he
  · exact mem_of_getLast? he
  · exact mem_of_head? he

theorem tailEntry_addSync (obj : Nat) : (s.addEntry (.newSync obj)).tailEntry = some (.newSync obj) := by
  cases hm : s.addMode <;> simp [addEntry, tailEntry, hm]

theorem Built.tailEntry_sync (h : s.Built order) {obj : Nat} (he : s.tailEntry = some e) (hobj : e.syncObj = some obj) :
    (match s.addMode with | .back => order.getLast? | .front => order.head?) = some obj := by
  rw [← h.syncs]
  unfold PartSched.syncs
  cases hm : s.addMode with
  | back =>
    simp only [tailEntry, hm] at he
    obtain ⟨l, hl⟩ := getLast?_eq_some_iff.mp he
    rw [hl, filterMap_append, filterMap_cons_some hobj, filterMap_nil, getLast?_concat]
  | front =>
    simp only [tailEntry, hm] at he
    obtain ⟨l, hl⟩ := head?_eq_some_iff.mp he
    rw [hl, filterMap_cons_some hobj, head?_cons]

end PartSched

namespace MasterSched

/-- What the builder keeps: `n` partial schedules with the same sync objects, each of them once. -/
structure Built (n : Nat) (order : List Nat) (s : MasterSched τ) : Prop where
  length : s.subscheds.length = n
  nodup : order.Nodup
  lt : ∀ obj ∈ order, obj < s.syncs
  parts : ∀ p ∈ s.subscheds, p.Built order

variable {n : Nat} {order : List Nat} {s s' : MasterSched τ}

theorem new_built (n : Nat) : (new n : MasterSched τ).Built n [] := by
  refine ⟨length_replicate, nodup_nil, nofun, fun p hp => ?_⟩
  rw [eq_of_mem_replicate hp]
  exact ⟨nofun, rfl⟩

theorem Built.modify (h : s.Built n order) (c : Nat) {f : PartSched τ → PartSched τ}
    (hf : ∀ p : PartSched τ, p.Built order → (f p).Built order) :
    Built n order { s with subscheds := s.subscheds.modify c f } := by
  refine ⟨by rw [length_modify]; exact h.length, h.nodup, h.lt, fun p hp => ?_⟩
  obtain ⟨j, hj⟩ := getElem?_of_mem hp
  rw [getElem?_modify] at hj
  obtain ⟨q, hq, rfl⟩ := Option.map_eq_some_iff.mp hj
  have hbuilt := h.parts q (mem_of_getElem? hq)
  split
  · exact hf q hbuilt
  · exact hbuilt

/-- All the tails are `SYNC` entries of one object after a call, whether it has added them or not. -/
def MeetAt (s : MasterSched τ) (obj : Nat) : Prop :=
  s.subscheds ≠ [] ∧ ∀ p ∈ s.subscheds, p.tailEntry = some (.newSync obj)

/-- After a call all partial schedules end in a `SYNC` of one object. -/
theorem Built.syncSubscheds (h : s.Built n order) (hs : s.syncSubscheds = some s') :
    (∃ order', s'.Built n order' ∧ order ⊆ order') ∧ ∃ obj, s'.MeetAt obj := by
  unfold MasterSched.syncSubscheds at hs
  split at hs
  next => cases hs
  next p rest hparts =>
    obtain ⟨hmode, hs⟩ := Option.ite_none_right_eq_some.mp hs
    have hmode : ∀ q ∈ s.subscheds, q.addMode = p.addMode := fun q hq =>
      of_decide_eq_true (all_eq_true.mp hmode q hq)
    have hne : s.subscheds ≠ [] := by rw [hparts]; exact cons_ne_nil _ _
    split at hs
    next htails =>
      cases hs
      refine ⟨⟨order, h, fun _ => id⟩, ?_⟩
      -- the tails are all the sync object at the same end of the same list
      have htail : ∀ q ∈ s.subscheds, ∃ obj, q.tailEntry = some (.newSync obj) ∧
          (match p.addMode with | .back => order.getLast? | .front => order.head?) = some obj := by
        intro q hq
        have hany := all_eq_true.mp htails q hq
        obtain ⟨e, he⟩ : ∃ e, q.tailEntry = some e := Option.isSome_iff_exists.mp (Option.isSome_of_any hany)
        obtain ⟨obj, hobj⟩ := Option.isSome_iff_exists.mp (show e.syncObj.isSome by rw [he] at hany; exact hany)
        have hmem := mem_of_tailEntry he
        have hend := (h.parts q hq).tailEntry_sync he hobj
        rw [hmode q hq] at hend
        exact ⟨obj, by rw [he, ((h.parts q hq).entries e hmem).sync obj hobj], hend⟩
      obtain ⟨obj, -, hobj⟩ := htail p (by rw [hparts]; exact mem_cons_self)
      refine ⟨obj, hne, fun q hq => ?_⟩
      obtain ⟨obj', hq', hobj'⟩ := htail q hq
      rw [hq', Option.some.inj (hobj'.symm.trans hobj)]
    next =>
      cases hs
      have hfresh : s.syncs ∉ order := fun hmem => Nat.lt_irrefl _ (h.lt _ hmem)
      have hwith : ∀ obj, obj ∈ withSync p.addMode order s.syncs ↔ obj = s.syncs ∨ obj ∈ order := by
        intro obj
        cases hm : p.addMode <;> simp [withSync, or_comm]
      refine ⟨⟨withSync p.addMode order s.syncs, ⟨?_, ?_, ?_, ?_⟩, fun obj hobj => (hwith obj).mpr (.inr hobj)⟩,
        s.syncs, ?_, ?_⟩
      · rw [length_map]
        exact h.length
      · cases p.addMode with
        | back => exact nodup_append.mpr ⟨h.nodup, nodup_singleton _, fun a ha b hb hab =>
            hfresh (mem_singleton.mp hb ▸ hab ▸ ha)⟩
        | front => exact nodup_cons.mpr ⟨hfresh, h.nodup⟩
      · intro obj hobj
        rcases (hwith obj).mp hobj with rfl | hmem
        · exact Nat.lt_succ_self _
        · exact Nat.lt_succ_of_lt (h.lt obj hmem)
      · intro q hq
        obtain ⟨q, hmem, rfl⟩ := mem_map.mp hq
        exact hmode q hmem ▸ (h.parts q hmem).addSync s.syncs
      · exact fun hnil => hne (map_eq_nil_iff.mp hnil)
      · intro q hq
        obtain ⟨q, -, rfl⟩ := mem_map.mp hq
        exact tailEntry_addSync s.syncs

/-- Whatever is added, all have the same sync objects in one order. -/
theorem Built.build (h : s.Built n order) {a : BuildAction τ} (hs : s.build a = some s') :
    ∃ order', s'.Built n order' ∧ order ⊆ order' := by
  cases a with
  | addOp c barrier mode o proxyCopy =>
    cases hs
    have hnew : (newOp barrier mode o proxyCopy).New := ⟨rfl, by cases proxyCopy <;> rfl, nofun, nofun⟩
    exact ⟨order, h.modify c fun p hp => hp.addEntry hnew rfl, fun _ => id⟩
  | addSubsched c barrier mode t =>
    cases hs
    have hnew : (newSubsched barrier mode t.1).New :=
      ⟨rfl, rfl, fun u hu => EntryBody.subsched.inj hu ▸ t.2, nofun⟩
    exact ⟨order, h.modify c fun p hp => hp.addEntry hnew rfl, fun _ => id⟩
  | addBarrier c =>
    cases hs
    exact ⟨order, h.modify c fun p hp => hp.addBarrier, fun _ => id⟩
  | setAddMode c mode =>
    cases hs
    exact ⟨order, h.modify c fun p hp => ⟨hp.entries, hp.syncs⟩, fun _ => id⟩
  | syncSubscheds => exact (h.syncSubscheds hs).1

/-- The same for a whole builder. -/
theorem built_of_builds {l : List (BuildAction τ)} (h : s.Built n order) (hs : l.foldlM build s = some s') :
    ∃ order', s'.Built n order' ∧ order ⊆ order' := by
  induction l generalizing s order with
  | nil =>
    cases hs
    exact ⟨order, h, fun _ => id⟩
  | cons a l ih =>
    obtain ⟨s₁, ha, hl⟩ := Option.bind_eq_some_iff.mp hs
    obtain ⟨order₁, h₁, hsub₁⟩ := h.build ha
    obtain ⟨order', h', hsub⟩ := ih h₁ hl
    exact ⟨order', h', List.Subset.trans hsub₁ hsub⟩

theorem Built.mem_of_meetAt (h : s.Built n order) {obj : Nat} (hmeet : s.MeetAt obj) : obj ∈ order := by
  obtain ⟨p, hp⟩ := exists_mem_of_ne_nil _ hmeet.1
  have htail := hmeet.2 p hp
  have hmem := mem_of_tailEntry htail
  rw [← (h.parts p hp).syncs]
  exact mem_filterMap.mpr ⟨_, hmem, rfl⟩

end MasterSched

/-! ### The schedules of the collectives -/

/-- A builder's entry, before the schedule is started. -/
def SchedEntry.toPart (e : SchedEntry) : PartEntry EntryKind :=
  match e.kind with
  | .sync obj => { newSync obj with barrier := e.barrier }
  | kind => newOp e.barrier .regular kind false

def Sched.toPart (s : Sched) : PartSched EntryKind := ⟨s.entries.map SchedEntry.toPart, .back⟩

namespace Sched

theorem toPart_createSync (s : Sched) (obj : Nat) : (s.createSync obj).toPart = s.toPart.addEntry (.newSync obj) := by
  simp [toPart, addEntry, SchedEntry.toPart, newSync]

/-- A tail is a `SYNC` in the one model if it is one in the other. -/
theorem endsInSync_eq (s : Sched) : (s.toPart.tailEntry.any fun e => e.syncObj.isSome) = s.endsInSync := by
  unfold toPart tailEntry endsInSync
  rw [getLast?_map]
  rcases s.entries.getLast? with _ | ⟨kind, b⟩
  · rfl
  · cases kind <;> rfl

end Sched

namespace MainSched

def toMaster (s : MainSched) : MasterSched EntryKind := ⟨s.subscheds.map Sched.toPart, s.syncs⟩

/-- **The builders' `sync_subscheds` is the one of partial schedules that are filled at the back.** -/
theorem toMaster_syncSubscheds (s : MainSched) : s.toMaster.syncSubscheds = s.syncSubscheds.map toMaster := by
  obtain ⟨subscheds, syncs⟩ := s
  cases subscheds with
  | nil => rfl
  | cons x xs =>
    have hmode : (map Sched.toPart (x :: xs)).all (fun c => c.addMode = x.toPart.addMode) = true := by
      rw [all_map]
      exact all_eq_true.mpr fun _ _ => rfl
    have htail : ((map Sched.toPart (x :: xs)).all fun c => c.tailEntry.any fun e => e.syncObj.isSome) =
        (x :: xs).all (·.endsInSync) := by
      rw [all_map]
      exact congrArg _ (funext Sched.endsInSync_eq)
    refine (if_pos hmode).trans ?_
    rw [syncSubscheds, if_neg (cons_ne_nil x xs)]
    show ite ((map Sched.toPart (x :: xs)).all _ = true) _ _ = _
    rw [htail]
    split
    · rfl
    · simp only [Option.map_some, toMaster, map_map]
      exact congrArg (fun f => some (MasterSched.mk (map f (x :: xs)) (syncs + 1)))
        (funext fun c => (c.toPart_createSync syncs).symm)

end MainSched

end OneCcl
