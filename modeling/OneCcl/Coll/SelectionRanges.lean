import OneCcl.Coll.SelectionTable

/-!
# The ranges of a selection table

A well-formed table is the borders of disjoint ranges in their order. Each loop of `insert` is read as a step on the
ranges: the first drops them (`removeInternal_elems`), the second cuts them at the borders of the new range, the third
joins neighbours (`mergeTable_elems`) and leaves every lookup as it is.
-/

namespace OneCcl

open List SortedMap

/-- A range of sizes and its algorithm. -/
structure SizeRange (α : Type) where
  left : Nat
  right : Nat
  algo : α
  le : left ≤ right

open SizeRange

namespace SizeRange

variable {α : Type} (g : SizeRange α)

def IsPoint : Prop := g.left = g.right

instance : Decidable g.IsPoint := inferInstanceAs (Decidable (g.left = g.right))

/-- The border before the last entry of a range, -/
def firstElem : SelectionTable α := if g.IsPoint then [] else [(g.left, g.algo, .left)]

/-- and the last entry. -/
def lastElem : Nat × α × SelectionBorder := (g.right, g.algo, if g.IsPoint then .both else .right)

def elems : SelectionTable α := g.firstElem ++ [g.lastElem]

variable {g}

variable (g) in
theorem lastElem_ne_left : g.lastElem.2.2 ≠ .left := by
  unfold lastElem
  split <;> exact nofun

theorem elems_of_isPoint (h : g.IsPoint) : g.elems = [(g.right, g.algo, .both)] := by
  rw [elems, firstElem, lastElem, if_pos h, if_pos h]
  rfl

theorem elems_of_not_isPoint (h : ¬ g.IsPoint) : g.elems = [(g.left, g.algo, .left), (g.right, g.algo, .right)] := by
  rw [elems, firstElem, lastElem, if_neg h, if_neg h]
  rfl

theorem mem_elems {e : Nat × α × SelectionBorder} (h : e ∈ g.elems) : e.1 = g.left ∨ e.1 = g.right := by
  by_cases hp : g.IsPoint
  · rw [elems_of_isPoint hp, mem_singleton] at h
    rw [h]
    exact .inr rfl
  · rw [elems_of_not_isPoint hp, mem_cons, mem_singleton] at h
    rcases h with rfl | rfl
    · exact .inl rfl
    · exact .inr rfl

end SizeRange

variable {α : Type}

def tableOf (rs : List (SizeRange α)) : SelectionTable α := rs.flatMap elems

/-- Ranges that stand in a table: in their order, disjoint, and of sizes that a `size_t` can hold. -/
structure Ranges (rs : List (SizeRange α)) : Prop where
  ordered : rs.Pairwise fun g h => g.right < h.left
  bounded : ∀ g ∈ rs, g.right ≤ selectionMaxCollSize

/-- The algorithm for a size: that of the first range that does not end below it. -/
def select (rs : List (SizeRange α)) (size : Nat) : Option α :=
  (rs.find? fun g => decide (size ≤ g.right)).map algo

section

variable {rs rs' : List (SizeRange α)} {g h : SizeRange α} {size k : Nat}

theorem tableOf_cons : tableOf (g :: rs) = g.elems ++ tableOf rs := flatMap_cons

theorem tableOf_append : tableOf (rs ++ rs') = tableOf rs ++ tableOf rs' := flatMap_append

theorem tableOf_singleton : tableOf [g] = g.elems := append_nil _

theorem length_le_tableOf (rs : List (SizeRange α)) : rs.length ≤ (tableOf rs).length := by
  induction rs with
  | nil => exact le_rfl
  | cons g rs ih =>
    rw [tableOf_cons, length_append, elems, length_append, length_cons, length_singleton]
    omega

theorem tableOf_across (h : g.left < g.right) : tableOf rs ++ tableOf (g :: rs') =
    (tableOf rs ++ [(g.left, g.algo, .left)]) ++ (g.right, g.algo, .right) :: tableOf rs' := by
  rw [tableOf_cons, elems_of_not_isPoint h.ne, append_assoc]
  rfl

theorem below_tableOf (h : ∀ g ∈ rs, g.right < k) : Below (tableOf rs) k := by
  intro e he
  obtain ⟨g, hg, he⟩ := mem_flatMap.mp he
  have := g.le
  have := h g hg
  rcases mem_elems he with h | h <;> omega

theorem above_tableOf (h : ∀ g ∈ rs, k < g.left) : Above (tableOf rs) k := by
  intro e he
  obtain ⟨g, hg, he⟩ := mem_flatMap.mp he
  have := g.le
  have := h g hg
  rcases mem_elems he with h | h <;> omega

/-- **Lookup** in a table is lookup among its ranges. -/
theorem getValueFromTable_tableOf (rs : List (SizeRange α)) (size : Nat) :
    getValueFromTable size (tableOf rs) = select rs size := by
  unfold getValueFromTable select
  induction rs with
  | nil => rfl
  | cons g rs ih =>
    have hle := g.le
    rw [tableOf_cons, find?_cons]
    by_cases hright : size ≤ g.right
    · rw [decide_eq_true hright]
      by_cases hp : g.IsPoint
      · rw [elems_of_isPoint hp, singleton_append, lowerBound_cons hright]
        rfl
      · rw [elems_of_not_isPoint hp]
        by_cases hleft : size ≤ g.left
        · rw [cons_append, lowerBound_cons hleft]
          rfl
        · have hbelow : Below [(g.left, g.algo, SelectionBorder.left)] size := below_singleton (lt_of_not_ge hleft)
          show Option.map _ (lowerBound ([(g.left, g.algo, SelectionBorder.left)] ++ _ :: _) size) = _
          rw [lowerBound_append hbelow, lowerBound_cons hright]
          rfl
    · rw [decide_eq_false hright, lowerBound_append, ih]
      intro e he
      rcases mem_elems he with h | h <;> omega

theorem Ranges.tail (h : Ranges (g :: rs)) : Ranges rs :=
  ⟨h.ordered.tail, fun g hg => h.bounded g (mem_cons_of_mem _ hg)⟩

theorem Ranges.lt (h : Ranges (g :: rs)) : ∀ h ∈ rs, g.right < h.left := (pairwise_cons.mp h.ordered).1

theorem Ranges.sublist (h : Ranges rs) (hs : rs'.Sublist rs) : Ranges rs' :=
  ⟨h.ordered.sublist hs, fun g hg => h.bounded g (hs.subset hg)⟩

theorem Ranges.upper (h : Ranges (rs' ++ rs)) : Ranges rs := h.sublist (sublist_append_right _ _)

theorem Ranges.lower_lt (h : Ranges (rs' ++ g :: rs)) : ∀ h ∈ rs', h.right < g.left :=
  fun h' hh => (pairwise_append.mp h.ordered).2.2 h' hh g mem_cons_self

/-- A range in the place of another that ends where it ends and begins no earlier. -/
theorem Ranges.replace (hrs : Ranges (g :: rs)) (hright : h.right = g.right) : Ranges (h :: rs) :=
  ⟨pairwise_cons.mpr ⟨hright ▸ hrs.lt, hrs.tail.ordered⟩,
    forall_mem_cons.mpr ⟨hright ▸ hrs.bounded g mem_cons_self, hrs.tail.bounded⟩⟩

theorem select_append_of_lt (h : ∀ g ∈ rs, g.right < size) : select (rs ++ rs') size = select rs' size := by
  unfold select
  rw [find?_append, find?_eq_none.mpr fun g hg => by simpa using h g hg]
  rfl

theorem select_cons_of_le (h : size ≤ g.right) : select (g :: rs) size = some g.algo := by
  unfold select
  rw [find?_cons, decide_eq_true h]
  rfl

theorem select_cons_of_lt (h : g.right < size) : select (g :: rs) size = select rs size := by
  unfold select
  rw [find?_cons, decide_eq_false h.not_ge]

theorem select_append_of_exists (h : ∃ g ∈ rs, size ≤ g.right) : select (rs ++ rs') size = select rs size := by
  have hsome : (rs.find? fun g => decide (size ≤ g.right)).isSome := by
    rw [find?_isSome]
    simpa using h
  unfold select
  rw [find?_append, Option.or_of_isSome hsome]

end

/-! ## The first loop -/

section

variable [DecidableEq α] {right : Nat}

/-- What the first loop leaves of the ranges from `left` on: it drops those that end by `right`, and the next one too if
that is a single size. -/
def dropInside (right : Nat) : List (SizeRange α) → List (SizeRange α)
  | [] => []
  | g :: rs => if g.right ≤ right then dropInside right rs else if g.IsPoint then rs else g :: rs

variable {elemSize : Nat}

theorem removeInternal_of_lt (h : right < elemSize) (table : SelectionTable α) :
    removeInternal right elemSize table = .ok table := by
  cases table with
  | nil => rfl
  | cons e table =>
    unfold removeInternal
    exact if_neg h.not_ge

theorem removeInternal_tableOf (rs : List (SizeRange α)) (h : elemSize ≤ right) :
    removeInternal right elemSize (tableOf rs) = .ok (tableOf (dropInside right rs)) := by
  induction rs generalizing elemSize with
  | nil => rfl
  | cons g rs ih =>
    have hle := g.le
    rw [tableOf_cons, dropInside]
    by_cases hp : g.IsPoint
    · -- a single entry is erased whether or not it is inside
      rw [elems_of_isPoint hp, singleton_append, removeInternal, if_pos h]
      split
      · next hin => exact ih hin
      · next hout => exact removeInternal_of_lt (lt_of_not_ge hout) _
    · rw [elems_of_not_isPoint hp]
      simp only [cons_append, nil_append]
      rw [removeInternal, if_pos h]
      simp only [ne_eq, not_true_eq_false, if_false]
      split
      · next hin => exact ih (hle.trans hin)
      · next hout =>
        have hrest : removeInternal right g.left ((g.right, g.algo, .right) :: tableOf rs) =
            .ok ((g.right, g.algo, .right) :: tableOf rs) := by
          by_cases hl : g.left ≤ right
          · rw [removeInternal, if_pos hl]
            show Except.map _ _ = _
            rw [removeInternal_of_lt (lt_of_not_ge hout)]
            rfl
          · exact removeInternal_of_lt (lt_of_not_ge hl) _
        rw [hrest, tableOf_cons, elems_of_not_isPoint hp]
        rfl

end

/-! ## The new borders and the third loop -/

theorem addBorders_tableOf {lower upper : List (SizeRange α)} (new : SizeRange α) (hl : ∀ g ∈ lower, g.right < new.left)
    (hu : ∀ g ∈ upper, new.right < g.left) :
    addBorders (tableOf lower ++ tableOf upper) new.left new.right new.algo = .ok (tableOf (lower ++ new :: upper)) := by
  have hle := new.le
  have hbelow := below_tableOf hl
  have habove := above_tableOf hu
  have hleft : find (tableOf lower ++ tableOf upper) new.left = none := by
    rw [find_append hbelow, find_of_above (habove.mono hle)]
  have hright : find (tableOf lower ++ tableOf upper) new.right = none := by
    rw [find_append (hbelow.mono hle), find_of_above habove]
  unfold addBorders
  rw [hleft, hright]
  rw [tableOf_append, tableOf_cons]
  by_cases hp : new.IsPoint
  · have heq : new.left = new.right := hp
    rw [if_pos heq, assign_append hbelow, assign_of_above (habove.mono hle), elems_of_isPoint hp, heq]
    rfl
  · have hne : new.left ≠ new.right := hp
    have hlt : new.left < new.right := Nat.lt_of_le_of_ne hle hne
    have hone : Below (tableOf lower ++ [(new.left, new.algo, SelectionBorder.left)]) new.right :=
      (hbelow.mono hle).append (below_singleton hlt)
    rw [if_neg hne, assign_append hbelow, assign_of_above (habove.mono hle), append_cons, assign_append hone,
      assign_of_above habove, elems_of_not_isPoint hp, append_assoc]
    rfl

/-- Two neighbours with one algorithm, as one range. -/
def SizeRange.join (g h : SizeRange α) (hgh : g.right < h.left) : SizeRange α where
  left := g.left
  right := h.right
  algo := h.algo
  le := g.le.trans ((Nat.le_of_lt hgh).trans h.le)

variable {g h : SizeRange α}

theorem SizeRange.join_not_isPoint (hgh : g.right < h.left) : ¬ (g.join h hgh).IsPoint := by
  have := g.le
  have := h.le
  show g.left ≠ h.right
  omega

section

variable [DecidableEq α]

variable {table : SelectionTable α}

theorem mergeAdjacent_pass {elem : Nat × α × SelectionBorder}
    (helem : elem.2.2 ≠ .left) (hno : ¬ ((elem.1 + 1) % 2 ^ 64 = h.left ∧ elem.2.1 = h.algo)) :
    mergeAdjacent elem (h.elems ++ table) =
      (mergeAdjacent h.lastElem table).map fun rest => elem :: (h.firstElem ++ rest) := by
  by_cases hp : h.IsPoint
  · rw [elems_of_isPoint hp, firstElem, lastElem, if_pos hp, if_pos hp,
      singleton_append, mergeAdjacent, if_neg helem, if_neg nofun]
    rw [show h.left = h.right from hp] at hno
    rw [if_neg hno]
    rfl
  · rw [elems_of_not_isPoint hp, firstElem, lastElem, if_neg hp, if_neg hp]
    simp only [cons_append, nil_append]
    rw [mergeAdjacent, if_neg helem, if_neg nofun, if_neg hno, mergeAdjacent, if_pos rfl]
    cases mergeAdjacent (h.right, h.algo, SelectionBorder.right) table <;> rfl

theorem mergeAdjacent_join (hgh : g.right < h.left) (hyes : (g.right + 1) % 2 ^ 64 = h.left ∧ g.algo = h.algo) :
    (mergeAdjacent g.lastElem (h.elems ++ table)).map (g.firstElem ++ ·) =
      (mergeAdjacent (g.join h hgh).lastElem table).map ((g.join h hgh).firstElem ++ ·) := by
  have hjoin := join_not_isPoint hgh
  have hlast : (g.join h hgh).lastElem = (h.right, h.algo, .right) := by
    rw [lastElem, if_neg hjoin]
    rfl
  have hfirst : g.firstElem ++ (if g.lastElem.2.2 = .both then [(g.lastElem.1, g.lastElem.2.1, .left)] else []) =
      (g.join h hgh).firstElem := by
    unfold firstElem lastElem
    rw [if_neg hjoin]
    by_cases hp : g.IsPoint
    · simp only [if_pos hp]
      rw [← show g.left = g.right from hp, hyes.2]
      rfl
    · simp only [if_neg hp]
      rw [hyes.2]
      rfl
  have hleft := g.lastElem_ne_left
  rw [hlast, ← hfirst]
  by_cases hp : h.IsPoint
  · rw [elems_of_isPoint hp, singleton_append, mergeAdjacent, if_neg hleft, if_neg nofun]
    have hadj : (g.lastElem.1 + 1) % 2 ^ 64 = h.right ∧ g.lastElem.2.1 = h.algo :=
      ⟨hyes.1.trans hp, hyes.2⟩
    rw [if_pos hadj, if_pos rfl]
    cases mergeAdjacent (h.right, h.algo, SelectionBorder.right) table with
    | error _ => rfl
    | ok table => exact congrArg Except.ok (append_assoc _ _ _).symm
  · rw [elems_of_not_isPoint hp]
    simp only [cons_append, nil_append]
    have hadj : (g.lastElem.1 + 1) % 2 ^ 64 = h.left ∧ g.lastElem.2.1 = h.algo := hyes
    rw [mergeAdjacent, if_neg hleft, if_neg nofun, if_pos hadj, if_neg nofun]
    dsimp only
    cases mergeAdjacent (h.right, h.algo, SelectionBorder.right) table with
    | error _ => rfl
    | ok table => exact congrArg Except.ok (append_assoc _ _ _).symm

theorem mergeAdjacent_tableOf (rs : List (SizeRange α)) (hrs : Ranges (g :: rs)) : ∃ rs',
    (mergeAdjacent g.lastElem (tableOf rs)).map (g.firstElem ++ ·) = .ok (tableOf rs') ∧ Ranges rs' ∧
    (∀ h ∈ rs', g.left ≤ h.left) ∧ ∀ size, select rs' size = select (g :: rs) size := by
  induction rs generalizing g with
  | nil =>
    refine ⟨[g], ?_, hrs, fun h hh => ?_, fun _ => rfl⟩
    · rw [tableOf_singleton]
      rfl
    · rw [mem_singleton.mp hh]
  | cons h rs ih =>
    have hgh : g.right < h.left := hrs.lt h mem_cons_self
    have hgle := g.le
    have hhle := h.le
    have hsmall : (g.right + 1) % 2 ^ 64 = g.right + 1 := by
      have hb := hrs.bounded h (mem_cons_of_mem _ mem_cons_self)
      have : selectionMaxCollSize = 2 ^ 64 - 1 := rfl
      exact Nat.mod_eq_of_lt (by omega)
    rw [tableOf_cons]
    by_cases hadj : (g.right + 1) % 2 ^ 64 = h.left ∧ g.algo = h.algo
    · obtain ⟨rs', heq, hrs', hle, hsel⟩ := ih (hrs.tail.replace (h := g.join h hgh) rfl)
      refine ⟨rs', ?_, hrs', hle, fun size => (hsel size).trans ?_⟩
      · rw [mergeAdjacent_join hgh hadj, heq]
      · rcases lt_or_ge g.right size with hlt | hge
        · rw [select_cons_of_lt hlt]
          rcases lt_or_ge h.right size with hlt' | hge'
          · rw [select_cons_of_lt hlt', select_cons_of_lt (show (g.join h hgh).right < size from hlt')]
          · rw [select_cons_of_le hge', select_cons_of_le (show size ≤ (g.join h hgh).right from hge')]
            rfl
        · rw [select_cons_of_le hge, hadj.2, select_cons_of_le (show size ≤ (g.join h hgh).right from by
            show size ≤ h.right
            omega)]
          rfl
    · obtain ⟨rs', heq, hrs', hle, hsel⟩ := ih hrs.tail
      refine ⟨g :: rs', ?_, ⟨pairwise_cons.mpr ⟨fun x hx => hgh.trans_le (hle x hx), hrs'.ordered⟩,
        forall_mem_cons.mpr ⟨hrs.bounded g mem_cons_self, hrs'.bounded⟩⟩,
        forall_mem_cons.mpr ⟨le_rfl, fun x hx => ?_⟩, fun size => ?_⟩
      · rw [mergeAdjacent_pass g.lastElem_ne_left hadj, tableOf_cons]
        cases hm : mergeAdjacent h.lastElem (tableOf rs) with
        | error e =>
          rw [hm] at heq
          cases heq
        | ok rest =>
          rw [hm] at heq
          have hrest : h.firstElem ++ rest = tableOf rs' := Except.ok.inj heq
          rw [← hrest, elems, append_assoc]
          rfl
      · have := hle x hx
        omega
      · rcases lt_or_ge g.right size with hlt | hge
        · rw [select_cons_of_lt hlt, select_cons_of_lt hlt, hsel]
        · rw [select_cons_of_le hge, select_cons_of_le hge]

/-- **The third loop** leaves a well-formed table with the same lookups. -/
theorem mergeTable_tableOf {rs : List (SizeRange α)} (hrs : Ranges rs) : ∃ rs', mergeTable (tableOf rs) = .ok (tableOf rs') ∧
    Ranges rs' ∧ ∀ size, select rs' size = select rs size := by
  cases rs with
  | nil => exact ⟨[], rfl, hrs, fun _ => rfl⟩
  | cons g rs =>
    obtain ⟨rs', heq, hrs', -, hsel⟩ := mergeAdjacent_tableOf rs hrs
    refine ⟨rs', ?_, hrs', hsel⟩
    rw [tableOf_cons, ← heq]
    unfold elems firstElem
    by_cases hp : g.IsPoint
    · rw [if_pos hp, nil_append, singleton_append, mergeTable]
      cases mergeAdjacent g.lastElem (tableOf rs) <;> rfl
    · rw [if_neg hp]
      simp only [cons_append, nil_append]
      rw [mergeTable, mergeAdjacent, if_pos rfl]

end

end OneCcl
