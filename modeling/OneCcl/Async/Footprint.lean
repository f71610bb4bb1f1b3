import Mathlib.Order.CompletePartialOrder
import Mathlib.Data.Set.Lattice
import OneCcl.Async.Plan

/-!
# Independence by footprint

Over a memory of addresses, most entries that are independent are so because they touch different
addresses. `Op.Within o R W` says that an entry changes nothing outside `W` and looks at nothing
outside `R`; two entries neither of which writes where the other reads or writes are independent
(`Op.Within.indep`).
-/

namespace Async

variable {A V D : Type}
variable {R W R' W' S : Set A} {f : (A → V) → A → V}

/-- A change of the memory that stays inside `W` and decides by what is in `R`. -/
structure Touches (f : (A → V) → A → V) (R W : Set A) : Prop where
  frame : ∀ m a, a ∉ W → f m a = m a
  decided : ∀ m m', (∀ a ∈ R, m a = m' a) → ∀ a ∈ W, f m a = f m' a

/-- A reading that looks at `R` only. -/
def Sees (read : (A → V) → D) (R : Set A) : Prop :=
  ∀ m m', (∀ a ∈ R, m a = m' a) → read m = read m'

theorem touches_id (h : W ⊆ R) : Touches (id : (A → V) → A → V) R W :=
  ⟨fun _ _ _ => rfl, fun _ _ hm a ha => hm a (h ha)⟩

theorem Touches.mono (h : Touches f R W) (hR : R ⊆ R') (hW : W ⊆ W') (hWR : W' ⊆ R') : Touches f R' W' where
  frame m a ha := h.frame m a fun hw => ha (hW hw)
  decided m m' hm a ha := by
    by_cases haW : a ∈ W
    · exact h.decided m m' (fun b hb => hm b (hR hb)) a haW
    · rw [h.frame m a haW, h.frame m' a haW, hm a (hWR ha)]

theorem Touches.agree (h : Touches f R W) (hd : Disjoint W S) (m : A → V) : ∀ a ∈ S, f m a = m a :=
  fun a ha => h.frame m a (Set.disjoint_right.mp hd ha)

theorem Touches.blind {read : (A → V) → D} (h : Touches f R W) (hr : Sees read S) (hd : Disjoint W S) (m : A → V) :
    read (f m) = read m :=
  hr _ _ (h.agree hd m)

theorem Touches.commute {g : (A → V) → A → V} (hf : Touches f R W) (hg : Touches g R' W') (h1 : Disjoint W W')
    (h2 : Disjoint W R') (h3 : Disjoint R W') : Function.Commute f g := by
  intro m
  funext a
  by_cases ha : a ∈ W
  · rw [hg.frame _ a (Set.disjoint_left.mp h1 ha)]
    exact hf.decided _ _ (hg.agree h3.symm m) a ha
  · rw [hf.frame _ a ha]
    by_cases ha' : a ∈ W'
    · exact (hg.decided _ _ (hf.agree h2 m) a ha').symm
    · rw [hg.frame _ a ha', hg.frame _ a ha', hf.frame _ a ha]

variable {ι χ κ δ : Type}

/-- An entry that looks at `R` and changes `W` only. -/
def Op.Within : Op ι χ κ (A → V) δ → Set A → Set A → Prop
  | .act f, R, W => Touches f R W
  | .send _ read, R, _ => Sees read R
  | .recv _ fits store finish, R, W => (∀ d, fits d = true → Touches (store d) R W) ∧ Touches finish R W
  | _, _, _ => True

variable {o : Op ι χ κ (A → V) δ}

theorem Op.Within.atoms (h : o.Within R W) : ∀ f ∈ o.atoms, Touches f R W := by
  intro f hf
  cases o with
  | act g =>
    obtain rfl : f = g := hf
    exact h
  | recv c fits store finish =>
    rcases hf with rfl | ⟨d, hd, rfl⟩
    · exact h.2
    · exact h.1 d hd
  | send | sync | sub => exact absurd hf (Set.notMem_empty f)

theorem Op.Within.blind (h : o.Within R W) (hf : Touches f R' W') (hd : Disjoint W' R) : o.Blind f := by
  cases o with
  | send c read => exact hf.blind h hd
  | _ => trivial

/-- **Entries with footprints apart are independent.** -/
theorem Op.Within.indep {o' : Op ι χ κ (A → V) δ} (h : o.Within R W) (h' : o'.Within R' W') (h1 : Disjoint W W')
    (h2 : Disjoint W R') (h3 : Disjoint R W') : o.Indep o' where
  commute f hf g hg := (h.atoms f hf).commute (h'.atoms g hg) h1 h2 h3
  blind g hg := h.blind (h'.atoms g hg) h3.symm
  blind' f hf := h'.blind (h.atoms f hf) h2

end Async
