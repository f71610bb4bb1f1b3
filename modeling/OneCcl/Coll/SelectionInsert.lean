import OneCcl.Coll.SelectionRanges

/-!
# Overriding a range of sizes

What `insert` makes of the ranges of a well-formed table. It does what it should unless one of three things is in the
way (`insert_correct_iff`): a range that ends right behind the new one, which is erased twice; a single size behind the new
one, which the first loop takes away since it tests the element before; and sizes below the new range that no range covers,
which then fall to the new range.
-/

namespace OneCcl

open List SortedMap SizeRange SelectionTable

variable {α : Type}

/-- What is left of a range before `left`, -/
def SizeRange.cutBefore (g : SizeRange α) {left : Nat} (h : g.left < left) : SizeRange α where
  left := g.left
  right := left - 1
  algo := g.algo
  le := Nat.le_sub_one_of_lt h

/-- and after `right`. -/
def SizeRange.cutAfter (g : SizeRange α) {right : Nat} (h : right < g.right) : SizeRange α where
  left := right + 1
  right := g.right
  algo := g.algo
  le := h

section

variable {table table' : SelectionTable α} {k : Nat} {v : α × SelectionBorder}

theorem eraseElem_append (h : Below table k) (h' : Above table' k) :
    eraseElem (table ++ (k, v) :: table') k = .ok (table ++ table') := by
  unfold eraseElem
  rw [find_append h, find_cons_self]
  exact congrArg Except.ok (erase_append h h')

theorem eraseElem_missing (h : Below table k) (h' : Above table' k) : eraseElem (table ++ table') k = .error .erased := by
  unfold eraseElem
  rw [find_append h, find_of_above h']

end

/-! ## The second loop -/

section

variable [DecidableEq α] {left right : Nat} {lower upper : List (SizeRange α)} {g : SizeRange α} (fuel : Nat)

theorem adjustRemaining_upper (hle : left ≤ right) (hl : ∀ g ∈ lower, g.right < left) (hu : ∀ g ∈ upper, right < g.left)
    (hp : ∀ g, upper.head? = some g → ¬ g.IsPoint) :
    adjustRemaining left right (fuel + 1) (tableOf lower ++ tableOf upper) = .ok (tableOf lower ++ tableOf upper) := by
  rw [adjustRemaining, lowerBound_append (below_tableOf hl)]
  cases upper with
  | nil => rfl
  | cons g upper =>
    have hg := hu g mem_cons_self
    rw [tableOf_cons, elems_of_not_isPoint (hp g rfl), cons_append, lowerBound_cons (by show left ≤ g.left; omega)]
    dsimp only
    rw [if_neg (by simp), if_neg (by omega), if_neg (by simp)]

theorem adjustRemaining_point (hl : ∀ g ∈ lower, g.right < left) (hg : left ≤ g.left) (hp : g.IsPoint) :
    adjustRemaining left right (fuel + 1) (tableOf lower ++ tableOf (g :: upper)) = .error .check := by
  have hle := g.le
  rw [adjustRemaining, lowerBound_append (below_tableOf hl), tableOf_cons, elems_of_isPoint hp,
    singleton_append, lowerBound_cons (by show left ≤ g.right; omega)]
  dsimp only
  rw [if_pos rfl]

theorem adjustRemaining_cutAfter (hl : ∀ g ∈ lower, g.right < left) (hrs : Ranges (g :: upper)) (hleft : left ≤ g.left)
    (hin : g.left ≤ right) (hout : right < g.right) :
    adjustRemaining left right (fuel + 1) (tableOf lower ++ tableOf (g :: upper)) =
      if g.right = right + 1 then .error .erased
      else adjustRemaining left right fuel (tableOf lower ++ tableOf (g.cutAfter hout :: upper)) := by
  have hp : ¬ g.IsPoint := by
    show g.left ≠ g.right
    omega
  have hmax : right ≠ selectionMaxCollSize := by
    have := hrs.bounded g mem_cons_self
    omega
  have hbelow : Below (tableOf lower) g.left := (below_tableOf hl).mono hleft
  have hfirst : Below (tableOf lower ++ [(g.left, g.algo, SelectionBorder.left)]) (right + 1) :=
    (hbelow.mono (by omega)).append (below_singleton (Nat.lt_succ_of_le hin))
  have habove : Above (tableOf upper) g.right := above_tableOf hrs.lt
  have hsnd : Above ((g.right, g.algo, SelectionBorder.right) :: tableOf upper) g.left :=
    above_cons (hin.trans_lt hout) (habove.mono g.le)
  rw [adjustRemaining, lowerBound_append (below_tableOf hl), tableOf_cons, elems_of_not_isPoint hp]
  simp only [cons_append, nil_append]
  rw [lowerBound_cons hleft]
  dsimp only
  rw [if_neg (by simp), if_pos ⟨hleft, hin⟩, if_neg (by simp), cutRight, if_neg hmax, append_cons, find_append hfirst]
  by_cases heq : g.right = right + 1
  · rw [if_pos heq]
    rw [heq] at habove ⊢
    have hboth : Above ((right + 1, g.algo, SelectionBorder.both) :: tableOf upper) g.left :=
      above_cons (Nat.lt_succ_of_le hin) (habove.mono (by omega))
    rw [find_cons_self]
    dsimp only
    rw [if_neg (by simp), assign_append hfirst, assign_cons_self, ← append_cons, eraseElem_append hbelow hboth]
    show Except.bind (eraseElem _ _) _ = _
    rw [eraseElem_missing hbelow hboth]
    rfl
  · have hlater : Above ((g.right, g.algo, SelectionBorder.right) :: tableOf upper) (right + 1) :=
      above_cons (by show right + 1 < g.right; omega) (habove.mono hout)
    have hcut : ¬ (g.cutAfter hout).IsPoint := by
      show right + 1 ≠ g.right
      omega
    rw [if_neg heq, find_of_above hlater]
    dsimp only
    rw [assign_append hfirst, assign_of_above hlater, ← append_cons, eraseElem_append hbelow]
    · rw [tableOf_cons, elems_of_not_isPoint hcut]
      rfl
    · exact above_cons (Nat.lt_succ_of_le hin) hsnd

theorem adjustRemaining_cutBefore (hl : ∀ h ∈ lower, h.right < g.left) (hrs : Ranges (g :: upper)) (hleft : g.left < left)
    (hge : left ≤ g.right) (hin : g.right ≤ right) :
    adjustRemaining left right (fuel + 1) (tableOf lower ++ tableOf (g :: upper)) =
      adjustRemaining left right fuel (tableOf (lower ++ [g.cutBefore hleft]) ++ tableOf upper) := by
  have hp : ¬ g.IsPoint := by
    show g.left ≠ g.right
    omega
  have hbelow : Below (tableOf lower) g.left := below_tableOf hl
  have hfirst : Below (tableOf lower ++ [(g.left, g.algo, SelectionBorder.left)]) left :=
    (hbelow.mono hleft.le).append (below_singleton hleft)
  have habove : Above (tableOf upper) g.right := above_tableOf hrs.lt
  have hsnd : Above ((g.right, g.algo, SelectionBorder.right) :: tableOf upper) (left - 1) :=
    above_cons (by show left - 1 < g.right; omega) (habove.mono (by omega))
  have hprev : Below (tableOf lower) (left - 1) := hbelow.mono (Nat.le_sub_one_of_lt hleft)
  rw [adjustRemaining, tableOf_cons, elems_of_not_isPoint hp]
  simp only [cons_append, nil_append]
  rw [append_cons, lowerBound_append hfirst, lowerBound_cons hge]
  dsimp only
  rw [if_neg (by simp), if_pos ⟨hge, hin⟩, if_pos rfl, cutLeft, if_neg (by omega), find_append_of_above hsnd,
    find_append hprev, ← append_cons]
  by_cases heq : g.left = left - 1
  · have hcut : (g.cutBefore hleft).IsPoint := heq
    rw [heq, find_cons_self]
    dsimp only
    rw [if_neg (by simp), assign_append hprev, assign_cons_self, append_cons, eraseElem_append _ habove,
      tableOf_append, tableOf_singleton, elems_of_isPoint hcut]
    · rfl
    · exact (hprev.mono (by omega)).append (below_singleton (by show left - 1 < g.right; omega))
  · have hlt : g.left < left - 1 := by omega
    have hcut : ¬ (g.cutBefore hleft).IsPoint := heq
    have htwo : Below (tableOf lower ++ [(g.left, g.algo, SelectionBorder.left), (left - 1, g.algo, SelectionBorder.right)])
        g.right := by
      refine (hprev.mono (by omega)).append fun e he => ?_
      rcases mem_cons.mp he with rfl | he
      · show g.left < g.right
        omega
      · rw [mem_singleton.mp he]
        show left - 1 < g.right
        omega
    rw [find_cons_of_ne heq]
    rw [assign_append hprev, assign, if_pos hlt, assign_of_above hsnd]
    have hassoc : tableOf lower ++ (g.left, g.algo, SelectionBorder.left) :: (left - 1, g.algo, SelectionBorder.right) ::
        (g.right, g.algo, SelectionBorder.right) :: tableOf upper = (tableOf lower ++
        [(g.left, g.algo, SelectionBorder.left), (left - 1, g.algo, SelectionBorder.right)]) ++
        (g.right, g.algo, SelectionBorder.right) :: tableOf upper := by simp
    rw [hassoc, eraseElem_append htwo habove, tableOf_append, tableOf_singleton, elems_of_not_isPoint hcut]
    rfl

theorem adjustRemaining_split (hle : left ≤ right) (hl : ∀ h ∈ lower, h.right < g.left) (hrs : Ranges (g :: upper))
    (hleft : g.left < left) (hout : right < g.right) :
    adjustRemaining left right (fuel + 1) (tableOf lower ++ tableOf (g :: upper)) =
      .ok (tableOf (lower ++ [g.cutBefore hleft]) ++ tableOf (g.cutAfter hout :: upper)) := by
  have hp : ¬ g.IsPoint := by
    show g.left ≠ g.right
    omega
  have hbound : g.right ≤ selectionMaxCollSize := hrs.bounded g mem_cons_self
  have hbelow : Below (tableOf lower) g.left := below_tableOf hl
  have hfirst : Below (tableOf lower ++ [(g.left, g.algo, SelectionBorder.left)]) left :=
    (hbelow.mono hleft.le).append (below_singleton hleft)
  have habove : Above (tableOf upper) g.right := above_tableOf hrs.lt
  have hge : ∀ e ∈ (g.right, g.algo, SelectionBorder.right) :: tableOf upper, g.right ≤ e.1 := by
    intro e he
    rcases mem_cons.mp he with rfl | he
    · exact le_rfl
    · exact (habove e he).le
  have hwrap : (left + selectionMaxCollSize) % 2 ^ 64 = left - 1 := by
    have : selectionMaxCollSize = 2 ^ 64 - 1 := rfl
    omega
  have hright : assign ((g.right, g.algo, SelectionBorder.right) :: tableOf upper) (right + 1)
      (g.algo, if g.right = right + 1 then .both else .left) = tableOf (g.cutAfter hout :: upper) := by
    rw [tableOf_cons]
    by_cases heq : g.right = right + 1
    · have hcut : (g.cutAfter hout).IsPoint := heq.symm
      rw [heq, if_pos rfl, assign_cons_self, elems_of_isPoint hcut]
      show _ = [(g.right, _)] ++ _
      rw [heq]
      rfl
    · have hcut : ¬ (g.cutAfter hout).IsPoint := fun h => heq (Eq.symm h)
      rw [if_neg heq, assign_of_above, elems_of_not_isPoint hcut]
      · rfl
      · exact above_cons (by show right + 1 < g.right; omega) (habove.mono hout)
  have hrest : Above (tableOf (g.cutAfter hout :: upper)) (left - 1) := by
    refine above_tableOf fun h hh => ?_
    rcases mem_cons.mp hh with rfl | hh
    · show left - 1 < right + 1
      omega
    · have := hrs.lt h hh
      omega
  have hleft' : assign ((g.left, g.algo, SelectionBorder.left) :: tableOf (g.cutAfter hout :: upper)) (left - 1)
      (g.algo, if g.left = left - 1 then .both else .right) =
      (g.cutBefore hleft).elems ++ tableOf (g.cutAfter hout :: upper) := by
    by_cases heq : g.left = left - 1
    · have hcut : (g.cutBefore hleft).IsPoint := heq
      rw [heq, if_pos rfl, assign_cons_self, elems_of_isPoint hcut]
      rfl
    · have hcut : ¬ (g.cutBefore hleft).IsPoint := heq
      rw [if_neg heq, assign, if_pos (show g.left < left - 1 by omega), assign_of_above hrest,
        elems_of_not_isPoint hcut]
      rfl
  rw [adjustRemaining, tableOf_cons, elems_of_not_isPoint hp]
  simp only [cons_append, nil_append]
  rw [append_cons, lowerBound_append hfirst, lowerBound_cons (by show left ≤ g.right; omega)]
  dsimp only
  rw [if_neg (by simp), if_neg (by omega), if_pos rfl, splitAround, ← append_cons,
    before_append (hbelow.mono g.le) (by show g.left < g.right; omega) hge]
  dsimp only
  rw [if_neg (by omega), if_neg (by simp), if_neg (by simp), hwrap, append_cons,
    assign_append (hfirst.mono (Nat.le_succ_of_le hle)), hright, ← append_cons,
    assign_append (hbelow.mono (Nat.le_sub_one_of_lt hleft)), hleft', tableOf_append, tableOf_singleton, append_assoc]

/-- What the second loop makes of the ranges from `left` on. -/
def trimUpper (right : Nat) : List (SizeRange α) → Except InsertError (List (SizeRange α))
  | [] => .ok []
  | g :: upper =>
    if right < g.left then if g.IsPoint then .error .check else .ok (g :: upper)
    else if h : right < g.right then if g.right = right + 1 then .error .erased else .ok (g.cutAfter h :: upper)
    else .error .endless

variable {fuel} in
theorem adjustRemaining_trimUpper (hfuel : upper.length < fuel) (hle : left ≤ right) (hl : ∀ g ∈ lower, g.right < left)
    (hrs : Ranges upper) (hu : ∀ g ∈ upper, left ≤ g.left) (hlt : ∀ g ∈ upper, right < g.right) :
    adjustRemaining left right fuel (tableOf lower ++ tableOf upper) =
      (trimUpper right upper).map fun rs => tableOf lower ++ tableOf rs := by
  cases upper with
  | nil =>
    obtain ⟨fuel, rfl⟩ := Nat.exists_eq_add_of_lt hfuel
    exact adjustRemaining_upper _ hle hl (forall_mem_nil _) nofun
  | cons g upper =>
    obtain ⟨fuel, rfl⟩ : ∃ k, fuel = k + 2 := ⟨fuel - 2, by rw [length_cons] at hfuel; omega⟩
    have hg := hlt g mem_cons_self
    have hlater : ∀ h ∈ upper, right < h.left := fun h hh => hg.trans (hrs.lt h hh)
    rw [trimUpper]
    split
    · next hout =>
      have hall : ∀ h ∈ g :: upper, right < h.left := forall_mem_cons.mpr ⟨hout, hlater⟩
      split
      · next hp => exact adjustRemaining_point _ hl (hu g mem_cons_self) hp
      · next hp =>
        refine adjustRemaining_upper _ hle hl hall fun h hh => ?_
        rwa [← Option.some.inj hh]
    · next hin =>
      rw [adjustRemaining_cutAfter _ hl hrs (hu g mem_cons_self) (le_of_not_gt hin) hg]
      split
      · rfl
      · next hne =>
        refine adjustRemaining_upper _ hle hl (forall_mem_cons.mpr ⟨Nat.lt_succ_self _, hlater⟩) fun h hh => ?_
        cases hh
        exact fun hp => hne (Eq.symm hp)

end

/-! ## The ranges behind the new one -/

section

variable {right : Nat} {rs upper upper' : List (SizeRange α)} {g : SizeRange α}

/-- The ranges that end behind `right`. -/
def behind (right : Nat) (rs : List (SizeRange α)) : List (SizeRange α) := rs.dropWhile fun g => decide (g.right ≤ right)

theorem behind_cons_of_lt (h : right < g.right) : behind right (g :: rs) = g :: rs :=
  dropWhile_cons_of_neg (by simpa using h)

theorem behind_cons_of_le (h : g.right ≤ right) : behind right (g :: rs) = behind right rs :=
  dropWhile_cons_of_pos (by simpa using h)

variable {lower : List (SizeRange α)}

theorem behind_append (h : ∀ g ∈ lower, g.right ≤ right) : behind right (lower ++ rs) = behind right rs := by
  induction lower with
  | nil => rfl
  | cons g lower ih =>
    rw [cons_append, behind_cons_of_le (h g mem_cons_self), ih fun g hg => h g (mem_cons_of_mem _ hg)]

variable (right) in
theorem behind_lt (hrs : Ranges rs) : ∀ g ∈ behind right rs, right < g.right := by
  induction rs with
  | nil => exact forall_mem_nil _
  | cons h rs ih =>
    rcases lt_or_ge right h.right with hlt | hge
    · rw [behind_cons_of_lt hlt]
      exact forall_mem_cons.mpr ⟨hlt, fun g hg => (Nat.lt_trans hlt (hrs.lt g hg)).trans_le g.le⟩
    · rw [behind_cons_of_le hge]
      exact ih hrs.tail

theorem select_behind {size : Nat} (h : right < size) (rs : List (SizeRange α)) :
    select (behind right rs) size = select rs size := by
  induction rs with
  | nil => rfl
  | cons g rs ih =>
    rcases lt_or_ge right g.right with hlt | hge
    · rw [behind_cons_of_lt hlt]
    · rw [behind_cons_of_le hge, ih, select_cons_of_lt (hge.trans_lt h)]

theorem dropInside_eq (rs : List (SizeRange α)) : dropInside right rs =
    match behind right rs with
    | [] => []
    | g :: upper => if g.IsPoint then upper else g :: upper := by
  induction rs with
  | nil => rfl
  | cons g rs ih =>
    rcases lt_or_ge right g.right with hlt | hge
    · rw [behind_cons_of_lt hlt, dropInside, if_neg hlt.not_ge]
    · rw [behind_cons_of_le hge, dropInside, if_pos hge, ih]

variable (right) in
theorem dropInside_sublist (rs : List (SizeRange α)) : (dropInside right rs).Sublist rs := by
  have hsub : (behind right rs).Sublist rs := dropWhile_sublist _
  rw [dropInside_eq]
  cases hb : behind right rs with
  | nil => exact nil_sublist _
  | cons g upper =>
    rw [hb] at hsub
    dsimp only
    split
    · exact (sublist_cons_self g upper).trans hsub
    · exact hsub

variable (right) in
theorem dropInside_lt (hrs : Ranges rs) : ∀ g ∈ dropInside right rs, right < g.right := by
  have hlt := behind_lt right hrs
  rw [dropInside_eq]
  cases hb : behind right rs with
  | nil => exact forall_mem_nil _
  | cons g upper =>
    rw [hb] at hlt
    dsimp only
    split
    · exact fun h hh => hlt h (mem_cons_of_mem _ hh)
    · exact hlt

theorem ranges_between {new : SizeRange α} (hl : Ranges lower) (hu : Ranges upper)
    (hln : ∀ g ∈ lower, g.right < new.left) (hnu : ∀ g ∈ upper, new.right < g.left)
    (hnew : new.right ≤ selectionMaxCollSize) : Ranges (lower ++ new :: upper) := by
  refine ⟨pairwise_append.mpr ⟨hl.ordered, pairwise_cons.mpr ⟨hnu, hu.ordered⟩, fun g hg => ?_⟩,
    forall_mem_append.mpr ⟨hl.bounded, forall_mem_cons.mpr ⟨hnew, hu.bounded⟩⟩⟩
  refine forall_mem_cons.mpr ⟨hln g hg, fun h hh => ?_⟩
  have := hln g hg
  have := new.le
  have := hnu h hh
  omega

theorem ranges_cutBefore (hrs : Ranges (lower ++ g :: upper)) (hl : ∀ h ∈ lower, h.right < g.left)
    {left : Nat} (hleft : g.left < left) (hge : left ≤ g.right) : Ranges (lower ++ [g.cutBefore hleft]) ∧
    ∀ h ∈ lower ++ [g.cutBefore hleft], h.right < left := by
  have hbound := hrs.bounded g (mem_append_right _ mem_cons_self)
  constructor
  · refine ranges_between (hrs.sublist (sublist_append_left _ _)) ⟨List.Pairwise.nil, nofun⟩ hl nofun ?_
    show left - 1 ≤ _
    omega
  · refine forall_mem_append.mpr ⟨fun h hh => (hl h hh).trans hleft, forall_mem_singleton.mpr ?_⟩
    show left - 1 < left
    omega

theorem select_cutAfter (hg : right < g.right) (size : Nat) :
    select (g.cutAfter hg :: upper) size = select (g :: upper) size := by
  rcases lt_or_ge g.right size with hs | hs
  · rw [select_cons_of_lt hs, select_cons_of_lt (show (g.cutAfter hg).right < size from hs)]
  · rw [select_cons_of_le hs, select_cons_of_le (show size ≤ (g.cutAfter hg).right from hs)]
    rfl

theorem trimUpper_ok (hrs : Ranges upper) (hlt : ∀ g ∈ upper, right < g.right)
    (h : trimUpper right upper = .ok upper') : Ranges upper' ∧ (∀ g ∈ upper', right < g.left) ∧
    ∀ size, select upper' size = select upper size := by
  cases upper with
  | nil =>
    rw [← Except.ok.inj h]
    exact ⟨hrs, forall_mem_nil _, fun _ => rfl⟩
  | cons g upper =>
    have hg := hlt g mem_cons_self
    have hlater : ∀ h ∈ upper, right < h.left := fun h hh => hg.trans (hrs.lt h hh)
    rw [trimUpper] at h
    split at h
    · next hout =>
      split at h
      · cases h
      · rw [← Except.ok.inj h]
        exact ⟨hrs, forall_mem_cons.mpr ⟨hout, hlater⟩, fun _ => rfl⟩
    · split at h
      · cases h
      · rw [← Except.ok.inj h]
        exact ⟨hrs.replace rfl, forall_mem_cons.mpr ⟨Nat.lt_succ_self _, hlater⟩, select_cutAfter hg⟩

end

/-! ## The whole of `insert` -/

section

variable [DecidableEq α] {left right : Nat}

/-- A call that goes well and leaves a table with the lookups of given ranges. -/
def Yields (result : TableResult α) (rs : List (SizeRange α)) : Prop :=
  ∃ rs', result = .ok (tableOf rs') ∧ Ranges rs' ∧ ∀ size, select rs' size = select rs size

/-- The part of `insert` after the first loop. -/
def insertBetween (below rest : SelectionTable α) (left right : Nat) (algo : α) : TableResult α :=
  (adjustRemaining left right ((below ++ rest).length + 1) (below ++ rest)).bind fun table =>
  (addBorders table left right algo).bind fun table => if table.length = 1 then .ok table else mergeTable table

variable {below rest : SelectionTable α} {lower upper : List (SizeRange α)} {new : SizeRange α}

theorem insert_append (hb : Below below left) (hr : ∀ e ∈ rest, left ≤ e.1) (algo : α) :
    insert (below ++ rest) left right algo =
      (removeFrom right rest).bind fun rest => insertBetween below rest left right algo := by
  have hbelow : (below ++ rest).filter (fun elem => decide (elem.1 < left)) = below := by
    rw [filter_append, filter_eq_self.mpr fun e he => by simpa using hb e he,
      filter_eq_nil_iff.mpr fun e he => by simpa using hr e he, append_nil]
  have hfrom : (below ++ rest).filter (fun elem => decide (left ≤ elem.1)) = rest := by
    rw [filter_append, filter_eq_nil_iff.mpr fun e he => by simpa using hb e he,
      filter_eq_self.mpr fun e he => by simpa using hr e he, nil_append]
  unfold SelectionTable.insert
  rw [hbelow, hfrom]
  rfl

theorem addBorders_merge (hrs : Ranges (lower ++ new :: upper)) :
    Yields ((addBorders (tableOf lower ++ tableOf upper) new.left new.right new.algo).bind fun table =>
      if table.length = 1 then .ok table else mergeTable table) (lower ++ new :: upper) := by
  obtain ⟨-, hnew, hcross⟩ := pairwise_append.mp hrs.ordered
  rw [addBorders_tableOf new (fun g hg => hcross g hg new mem_cons_self) (pairwise_cons.mp hnew).1]
  show Yields (if _ then _ else _) _
  split
  · exact ⟨_, rfl, hrs, fun _ => rfl⟩
  · exact mergeTable_tableOf hrs

theorem insertBetween_trimUpper (hadjust : adjustRemaining new.left new.right ((below ++ rest).length + 1) (below ++ rest) =
      (trimUpper new.right upper).map fun rs => tableOf lower ++ tableOf rs)
    (hl : Ranges lower) (hln : ∀ g ∈ lower, g.right < new.left) (hu : Ranges upper)
    (hlt : ∀ g ∈ upper, new.right < g.right) (hnew : new.right ≤ selectionMaxCollSize) :
    (∀ e, trimUpper new.right upper = .error e → insertBetween below rest new.left new.right new.algo = .error e) ∧
    ∀ upper', trimUpper new.right upper = .ok upper' →
      Yields (insertBetween below rest new.left new.right new.algo) (lower ++ new :: upper') := by
  unfold insertBetween
  rw [hadjust]
  refine ⟨fun e he => ?_, fun upper' hok => ?_⟩
  · rw [he]
    rfl
  · obtain ⟨hu', hbehind, -⟩ := trimUpper_ok hu hlt hok
    rw [hok]
    exact addBorders_merge (ranges_between hl hu' hln hbehind hnew)

section

variable {lower upper : List (SizeRange α)} {g new : SizeRange α}

/-- A range that begins below the new one and does not end there: its left border is below the new range, its right one
is not. -/
theorem insert_across (hrs : Ranges (g :: upper)) (hl : ∀ h ∈ lower, h.right < g.left) (hleft : g.left < new.left)
    (hge : new.left ≤ g.right) : insert (tableOf (lower ++ g :: upper)) new.left new.right new.algo =
      (removeInternal new.right g.right ((g.right, g.algo, .right) :: tableOf upper)).bind fun rest =>
        insertBetween (tableOf lower ++ [(g.left, g.algo, .left)]) rest new.left new.right new.algo := by
  have hbelow : Below (tableOf lower ++ [(g.left, g.algo, SelectionBorder.left)]) new.left :=
    (below_tableOf fun h hh => (hl h hh).trans hleft).append (below_singleton hleft)
  have hfrom : ∀ e ∈ (g.right, g.algo, SelectionBorder.right) :: tableOf upper, new.left ≤ e.1 := by
    intro e he
    rcases mem_cons.mp he with rfl | he
    · exact hge
    · have : g.right < e.1 := above_tableOf hrs.lt e he
      omega
  rw [tableOf_append, tableOf_across (hleft.trans_le hge), insert_append hbelow hfrom]
  rfl

theorem insert_inside (hrs : Ranges (lower ++ g :: upper)) (hleft : g.left < new.left) (hout : new.right < g.right) :
    Yields (insert (tableOf (lower ++ g :: upper)) new.left new.right new.algo)
      ((lower ++ [g.cutBefore hleft]) ++ new :: g.cutAfter hout :: upper) := by
  have hge : new.left ≤ g.right := new.le.trans hout.le
  have hrs' := hrs.upper
  have hlg := hrs.lower_lt
  have hbound := hrs'.bounded g mem_cons_self
  obtain ⟨hcuts, hcut⟩ := ranges_cutBefore hrs hlg hleft hge
  have hafter : Ranges (g.cutAfter hout :: upper) := hrs'.replace rfl
  rw [insert_across hrs' hlg hleft hge, removeInternal_of_lt hout]
  show Yields (insertBetween _ _ _ _ _) _
  unfold insertBetween
  rw [← tableOf_across (hleft.trans_le hge), adjustRemaining_split _ new.le hlg hrs' hleft hout]
  refine addBorders_merge (ranges_between hcuts hafter hcut ?_ ((Nat.le_of_lt hout).trans hbound))
  exact forall_mem_cons.mpr ⟨Nat.lt_succ_self _, fun h hh => hout.trans (hrs'.lt h hh)⟩

theorem insert_cut (hrs : Ranges (lower ++ g :: upper)) (hleft : g.left < new.left) (hge : new.left ≤ g.right)
    (hin : g.right ≤ new.right) (hnew : new.right ≤ selectionMaxCollSize) :
    (∀ e, trimUpper new.right (dropInside new.right upper) = .error e →
      insert (tableOf (lower ++ g :: upper)) new.left new.right new.algo = .error e) ∧
    ∀ upper', trimUpper new.right (dropInside new.right upper) = .ok upper' →
      Yields (insert (tableOf (lower ++ g :: upper)) new.left new.right new.algo)
        ((lower ++ [g.cutBefore hleft]) ++ new :: upper') := by
  have hrs' := hrs.upper
  have hlg := hrs.lower_lt
  obtain ⟨hcuts, hcut⟩ := ranges_cutBefore hrs hlg hleft hge
  have hsub := dropInside_sublist new.right upper
  have hdrop : Ranges (dropInside new.right upper) := hrs'.tail.sublist hsub
  have hlt := dropInside_lt new.right hrs'.tail
  have hremove : removeInternal new.right g.right ((g.right, g.algo, .right) :: tableOf upper) =
      .ok ((g.right, g.algo, .right) :: tableOf (dropInside new.right upper)) := by
    rw [removeInternal, if_pos hin, removeInternal_tableOf upper hin]
    rfl
  rw [insert_across hrs' hlg hleft hge, hremove]
  refine insertBetween_trimUpper ?_ hcuts hcut hdrop hlt hnew
  rw [← tableOf_across (hleft.trans_le hge),
    adjustRemaining_cutBefore _ hlg (hrs'.sublist (hsub.cons_cons g)) hleft hge hin]
  refine adjustRemaining_trimUpper ?_ new.le hcut hdrop (fun h hh => ?_) hlt
  · have := length_le_tableOf (dropInside new.right upper)
    rw [tableOf_across (hleft.trans_le hge), length_append, length_cons]
    omega
  · have := hrs'.lt h (hsub.subset hh)
    omega

/-- What the first loop leaves where no range sticks out below: it only starts on a range that begins by `right`. -/
def keepUpper (right : Nat) (upper : List (SizeRange α)) : List (SizeRange α) :=
  match upper with
  | [] => []
  | g :: _ => if g.left ≤ right then dropInside right upper else upper

theorem insert_over (hrs : Ranges (lower ++ upper)) (hl : ∀ g ∈ lower, g.right < new.left)
    (hu : ∀ g ∈ upper, new.left ≤ g.left) (hnew : new.right ≤ selectionMaxCollSize) :
    (∀ e, trimUpper new.right (keepUpper new.right upper) = .error e →
      insert (tableOf (lower ++ upper)) new.left new.right new.algo = .error e) ∧
    ∀ upper', trimUpper new.right (keepUpper new.right upper) = .ok upper' →
      Yields (insert (tableOf (lower ++ upper)) new.left new.right new.algo) (lower ++ new :: upper') := by
  have hupper := hrs.upper
  have hfrom : ∀ e ∈ tableOf upper, new.left ≤ e.1 := by
    intro e he
    obtain ⟨h, hh, he⟩ := mem_flatMap.mp he
    have := hu h hh
    have := h.le
    rcases mem_elems he with heq | heq <;> omega
  have hremove : removeFrom new.right (tableOf upper) = .ok (tableOf (keepUpper new.right upper)) := by
    cases upper with
    | nil => rfl
    | cons h upper =>
      have hfirst : removeFrom new.right (tableOf (h :: upper)) = removeInternal new.right h.left (tableOf (h :: upper)) := by
        rw [tableOf_cons]
        by_cases hp : h.IsPoint
        · rw [elems_of_isPoint hp, show h.left = h.right from hp]
          rfl
        · rw [elems_of_not_isPoint hp]
          rfl
      rw [hfirst, keepUpper]
      split
      · next hin => exact removeInternal_tableOf _ hin
      · next hout => exact removeInternal_of_lt (lt_of_not_ge hout) _
  have hsub : (keepUpper new.right upper).Sublist upper := by
    cases upper with
    | nil => exact List.Sublist.refl _
    | cons h upper =>
      rw [keepUpper]
      split
      · exact dropInside_sublist _ _
      · exact List.Sublist.refl _
  have hlt : ∀ g ∈ keepUpper new.right upper, new.right < g.right := by
    cases upper with
    | nil => exact forall_mem_nil _
    | cons h upper =>
      rw [keepUpper]
      split
      · exact dropInside_lt _ hupper
      · next hout =>
        intro g hg
        have := g.le
        have := h.le
        rcases mem_cons.mp hg with rfl | hg
        · omega
        · have := hupper.lt g hg
          omega
  have hkeep : Ranges (keepUpper new.right upper) := hupper.sublist hsub
  rw [tableOf_append, insert_append (below_tableOf hl) hfrom, hremove]
  refine insertBetween_trimUpper ?_ (hrs.sublist (sublist_append_left _ _)) hl hkeep hlt hnew
  refine adjustRemaining_trimUpper ?_ new.le hl hkeep (fun h hh => hu h (hsub.subset hh)) hlt
  have := length_le_tableOf (keepUpper new.right upper)
  rw [length_append]
  omega

end

end

end OneCcl
