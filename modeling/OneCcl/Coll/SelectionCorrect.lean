import OneCcl.Coll.SelectionInsert

/-!
# When overriding a range is right

`insert_correct_iff` says for every well-formed table and every new range when `insert` finishes, leaves a well-formed table,
and changes the lookups of the new range only.
-/

namespace OneCcl

open List SelectionTable

variable {α : Type}

/-- The borders of disjoint ranges in their order. -/
def WellFormed (table : SelectionTable α) : Prop := ∃ rs, Ranges rs ∧ table = tableOf rs

/-- **What `insert` is for.** -/
def InsertCorrect [DecidableEq α] (table : SelectionTable α) (left right : Nat) (algo : α) : Prop :=
  ∃ table', insert table left right algo = .ok table' ∧ WellFormed table' ∧
    (∀ size, left ≤ size → size ≤ right → getValueFromTable size table' = some algo) ∧
    ∀ size ≤ selectionMaxCollSize, size < left ∨ right < size →
      getValueFromTable size table' = getValueFromTable size table

/-- No size below the new range falls to it: there is none, the last one has a range, or it has the new algorithm
already. -/
def KeepsBelow (rs : List (SizeRange α)) (left : Nat) (algo : α) : Prop :=
  left = 0 ∨ (∃ g ∈ rs, g.left < left ∧ left ≤ g.right + 1) ∨ select rs (left - 1) = some algo

/-- The first range that ends behind the new one is no single size, unless the new range meets some range and the single
size is followed by a proper range with its algorithm; and if that range begins inside the new one, it does not end right
behind it. -/
def KeepsBehind (meets : Prop) (left right : Nat) : List (SizeRange α) → Prop
  | [] => True
  | g :: rest =>
    if g.IsPoint then meets ∧ ∃ h, rest.head? = some h ∧ ¬ h.IsPoint ∧ h.algo = g.algo
    else ¬ (left ≤ g.left ∧ g.left ≤ right ∧ g.right = right + 1)

section

variable [DecidableEq α] {rs lower upper upper' : List (SizeRange α)} {g new : SizeRange α}

theorem insertCorrect_of_yields
    (h : Yields (insert (tableOf rs) new.left new.right new.algo) (lower ++ new :: upper))
    (hl : ∀ g ∈ lower, g.right < new.left) : InsertCorrect (tableOf rs) new.left new.right new.algo ↔
      ∀ size ≤ selectionMaxCollSize, size < new.left ∨ new.right < size →
        select (lower ++ new :: upper) size = select rs size := by
  obtain ⟨rs', heq, hrs', hsel⟩ := h
  constructor
  · rintro ⟨table', htable, -, -, hout⟩ size hsize hor
    have := hout size hsize hor
    rw [← Except.ok.inj (heq.symm.trans htable)] at this
    rwa [getValueFromTable_tableOf, getValueFromTable_tableOf, hsel] at this
  · intro hout
    refine ⟨_, heq, ⟨rs', hrs', rfl⟩, fun size hle hge => ?_, fun size hsize hor => ?_⟩
    · rw [getValueFromTable_tableOf, hsel, select_append_of_lt fun g hg => (hl g hg).trans_le hle,
        select_cons_of_le hge]
    · rw [getValueFromTable_tableOf, getValueFromTable_tableOf, hsel]
      exact hout size hsize hor

theorem not_insertCorrect {table : SelectionTable α} {left right : Nat} {algo : α} {e : InsertError}
    (h : insert table left right algo = .error e) : ¬ InsertCorrect table left right algo := by
  rintro ⟨table', htable, -⟩
  cases h.symm.trans htable

end

/-! ## Behind the new range -/

section

variable {left right : Nat} {upper rs : List (SizeRange α)}

variable {g : SizeRange α} {rest : List (SizeRange α)} {started : Prop}

theorem trimUpper_point (hrs : Ranges (g :: rest))
    (hg : right < g.right) (hyes : started) (hsel : ∀ size, right < size → select (g :: rest) size = select upper size) :
    (∃ upper', trimUpper right rest = .ok upper' ∧
      ∀ size ≤ selectionMaxCollSize, right < size → select upper' size = select upper size) ↔
    started ∧ ∃ h, rest.head? = some h ∧ ¬ h.IsPoint ∧ h.algo = g.algo := by
  have hbound := hrs.bounded g mem_cons_self
  cases rest with
  | nil =>
    constructor
    · rintro ⟨upper', hok, hall⟩
      have hnone := hall g.right hbound hg
      rw [← Except.ok.inj hok, ← hsel _ hg, select_cons_of_le (le_rfl)] at hnone
      cases hnone
    · rintro ⟨-, h, hh, -⟩
      cases hh
  | cons h rest =>
    have hgh := hrs.lt h mem_cons_self
    have hle := h.le
    rw [trimUpper, if_pos (hg.trans hgh)]
    split
    · next hp =>
      refine ⟨by rintro ⟨_, hok, -⟩; exact absurd hok (by simp), ?_⟩
      rintro ⟨-, h', hh', hno, -⟩
      exact absurd (Option.some.inj hh' ▸ hp) hno
    · next hp =>
      constructor
      · rintro ⟨upper', hok, hall⟩
        have hsame := hall g.right hbound hg
        rw [← Except.ok.inj hok, ← hsel _ hg, select_cons_of_le (le_rfl), select_cons_of_le (by omega)] at hsame
        exact ⟨hyes, h, rfl, hp, Option.some.inj hsame⟩
      · rintro ⟨-, h', hh', -, halgo⟩
        rw [← Option.some.inj hh'] at halgo
        refine ⟨_, rfl, fun size _ hs => ?_⟩
        rw [← hsel size hs]
        rcases lt_or_ge g.right size with hlt | hge
        · rw [select_cons_of_lt hlt]
        · rw [select_cons_of_le hge, select_cons_of_le (by omega), halgo]

theorem trimUpper_range (hrs : Ranges (g :: rest)) (hp : ¬ g.IsPoint)
    (hlt : ∀ h ∈ g :: rest, right < h.right) (hle : left ≤ g.left)
    (hsel : ∀ size, right < size → select (g :: rest) size = select upper size) :
    (∃ upper', trimUpper right (g :: rest) = .ok upper' ∧
      ∀ size ≤ selectionMaxCollSize, right < size → select upper' size = select upper size) ↔
    ¬ (left ≤ g.left ∧ g.left ≤ right ∧ g.right = right + 1) := by
  have hkeep : ∀ upper', trimUpper right (g :: rest) = .ok upper' →
      ∀ size ≤ selectionMaxCollSize, right < size → select upper' size = select upper size :=
    fun upper' hok size _ hs => ((trimUpper_ok hrs hlt hok).2.2 size).trans (hsel size hs)
  have hg := hlt g mem_cons_self
  constructor
  · rintro ⟨upper', hok, -⟩ ⟨-, hin, heq⟩
    rw [trimUpper, if_neg hin.not_gt, dif_pos hg, if_pos heq] at hok
    cases hok
  · intro hno
    rcases lt_or_ge right g.left with hout | hin
    · have hok : trimUpper right (g :: rest) = .ok (g :: rest) := by rw [trimUpper, if_pos hout, if_neg hp]
      exact ⟨_, hok, hkeep _ hok⟩
    · have hok : trimUpper right (g :: rest) = .ok (g.cutAfter hg :: rest) := by
        rw [trimUpper, if_neg hin.not_gt, dif_pos hg, if_neg fun heq => hno ⟨hle, hin, heq⟩]
      exact ⟨_, hok, hkeep _ hok⟩

theorem trimUpper_iff (hrs : Ranges upper) (hle : ∀ g ∈ upper, left ≤ g.left) (hkept : rs = upper ∧
      (∀ g ∈ upper, right < g.left) ∧ ¬ started ∨ rs = dropInside right upper ∧ started) :
    (∃ upper', trimUpper right rs = .ok upper' ∧
      ∀ size ≤ selectionMaxCollSize, right < size → select upper' size = select upper size) ↔
    KeepsBehind started left right (behind right upper) := by
  have hlt := behind_lt right hrs
  have hbehind : Ranges (behind right upper) := hrs.sublist (dropWhile_sublist _)
  have hsel := fun size (h : right < size) => select_behind h upper
  have hmem : ∀ g ∈ behind right upper, g ∈ upper := fun g hg => (dropWhile_sublist _).subset hg
  rcases hkept with ⟨rfl, hout, hno⟩ | ⟨rfl, hyes⟩
  · -- the first loop did not start, and all ranges are behind
    have hall : behind right rs = rs := by
      cases rs with
      | nil => rfl
      | cons g rs => exact behind_cons_of_lt ((hout g mem_cons_self).trans_le g.le)
    rw [hall]
    cases rs with
    | nil => exact ⟨fun _ => trivial, fun _ => ⟨[], rfl, fun _ _ _ => rfl⟩⟩
    | cons g rs =>
      have hg := hout g mem_cons_self
      rw [trimUpper, if_pos hg, KeepsBehind]
      split
      · exact ⟨by rintro ⟨_, h, -⟩; exact absurd h (by simp), fun h => absurd h.1 hno⟩
      · exact ⟨fun _ h => absurd h.2.1 hg.not_ge, fun _ => ⟨_, rfl, fun _ _ _ => rfl⟩⟩
  · rw [dropInside_eq]
    cases hb : behind right upper with
    | nil =>
      rw [hb] at hsel
      exact ⟨fun _ => trivial, fun _ => ⟨[], rfl, fun size _ hs => hsel size hs⟩⟩
    | cons g rest =>
      rw [hb] at hsel hlt hbehind hmem
      have hg := hlt g mem_cons_self
      dsimp only
      rw [KeepsBehind]
      split
      · next hp => exact trimUpper_point hbehind hg hyes hsel
      · next hp => exact trimUpper_range hbehind hp hlt (hle g (hmem g mem_cons_self)) hsel

end

/-! ## Below the new range -/

section

variable {rs lower upper upper' : List (SizeRange α)} {g new : SizeRange α}

theorem exists_split (hrs : Ranges rs) (left : Nat) : ∃ lower upper, rs = lower ++ upper ∧
    (∀ g ∈ lower, g.right < left) ∧ ∀ g ∈ upper, left ≤ g.right := by
  induction rs with
  | nil => exact ⟨[], [], rfl, nofun, nofun⟩
  | cons g rs ih =>
    rcases lt_or_ge g.right left with hlt | hge
    · obtain ⟨lower, upper, rfl, hl, hu⟩ := ih hrs.tail
      exact ⟨g :: lower, upper, rfl, forall_mem_cons.mpr ⟨hlt, hl⟩, hu⟩
    · refine ⟨[], g :: rs, rfl, nofun, forall_mem_cons.mpr ⟨hge, fun h hh => ?_⟩⟩
      have := hrs.lt h hh
      have := h.le
      omega

variable {size : Nat}

theorem select_behind_new (hl : ∀ g ∈ lower, g.right < new.left) (hsize : new.right < size) :
    select (lower ++ new :: upper) size = select upper size := by
  have := new.le
  rw [select_append_of_lt fun g hg => (hl g hg).trans (by omega), select_cons_of_lt hsize]

theorem keepsBelow_iff (hl : ∀ g ∈ lower, g.right < new.left) (hu : ∀ g ∈ upper, new.left ≤ g.left) :
    (∀ size < new.left, select (lower ++ new :: upper') size = select (lower ++ upper) size) ↔
      KeepsBelow (lower ++ upper) new.left new.algo := by
  have hnew := new.le
  constructor
  · intro h
    by_cases hzero : new.left = 0
    · exact .inl hzero
    by_cases hcover : ∃ g ∈ lower, new.left ≤ g.right + 1
    · obtain ⟨g, hg, hge⟩ := hcover
      have := g.le
      have := hl g hg
      exact .inr (.inl ⟨g, mem_append_left _ hg, by omega, hge⟩)
    · have hfree : ∀ g ∈ lower, g.right < new.left - 1 := by
        intro g hg
        have hnot : ¬ new.left ≤ g.right + 1 := fun hge => hcover ⟨g, hg, hge⟩
        omega
      have hlast := h (new.left - 1) (by omega)
      rw [select_append_of_lt hfree, select_cons_of_le (by omega)] at hlast
      exact .inr (.inr hlast.symm)
  · intro hkeep size hsize
    by_cases hex : ∃ g ∈ lower, size ≤ g.right
    · rw [select_append_of_exists hex, select_append_of_exists hex]
    · have hfree : ∀ g ∈ lower, g.right < size := fun g hg => lt_of_not_ge fun h => hex ⟨g, hg, h⟩
      rw [select_append_of_lt hfree, select_cons_of_le (by omega), select_append_of_lt hfree]
      rcases hkeep with hzero | ⟨g, hg, hlt, hge⟩ | hlast
      · omega
      · rcases mem_append.mp hg with hg | hg
        · have := hfree g hg
          omega
        · have := hu g hg
          omega
      · rw [select_append_of_lt fun g hg => (hfree g hg).trans_le (by omega)] at hlast
        rw [← hlast]
        cases upper with
        | nil => rfl
        | cons h upper =>
          have := hu h mem_cons_self
          have := h.le
          rw [select_cons_of_le (by omega), select_cons_of_le (by omega)]

theorem select_cutBefore (hleft : g.left < new.left) (hge : new.left ≤ g.right) (hsize : size < new.left) :
    select ((lower ++ [g.cutBefore hleft]) ++ new :: upper') size = select (lower ++ g :: upper) size := by
  by_cases hex : ∃ h ∈ lower, size ≤ h.right
  · rw [append_assoc, select_append_of_exists hex, select_append_of_exists hex]
  · have hfree : ∀ h ∈ lower, h.right < size := fun h hh => lt_of_not_ge fun hle => hex ⟨h, hh, hle⟩
    have hcut : size ≤ (g.cutBefore hleft).right := Nat.le_sub_one_of_lt hsize
    rw [append_assoc, select_append_of_lt hfree, select_append_of_lt hfree, singleton_append,
      select_cons_of_le hcut, select_cons_of_le (by omega)]
    rfl

end

/-! ## The theorem -/

section

variable [DecidableEq α] {rs lower upper upper' : List (SizeRange α)} {g new : SizeRange α}

theorem insertCorrect_of_trimUpper {kept : List (SizeRange α)} {below behindOk : Prop}
    (hresult : (∀ e, trimUpper new.right kept = .error e →
        insert (tableOf rs) new.left new.right new.algo = .error e) ∧
      ∀ upper', trimUpper new.right kept = .ok upper' →
        Yields (insert (tableOf rs) new.left new.right new.algo) (lower ++ new :: upper'))
    (hl : ∀ g ∈ lower, g.right < new.left) (hnew : new.right ≤ selectionMaxCollSize)
    (hbelow : ∀ upper', (∀ size < new.left, select (lower ++ new :: upper') size = select rs size) ↔ below)
    (hbehind : (∃ upper', trimUpper new.right kept = .ok upper' ∧
      ∀ size ≤ selectionMaxCollSize, new.right < size → select upper' size = select rs size) ↔ behindOk) :
    InsertCorrect (tableOf rs) new.left new.right new.algo ↔ below ∧ behindOk := by
  have hle := new.le
  rw [← hbehind]
  cases htrim : trimUpper new.right kept with
  | error e =>
    exact ⟨fun h => absurd h (not_insertCorrect (hresult.1 e htrim)), fun ⟨_, _, hok, _⟩ => absurd hok nofun⟩
  | ok upper' =>
    rw [insertCorrect_of_yields (hresult.2 upper' htrim) hl, ← hbelow upper']
    constructor
    · intro h
      refine ⟨fun size hs => h size (by omega) (.inl hs), upper', rfl, fun size hmax hs => ?_⟩
      rw [← h size hmax (.inr hs), select_behind_new hl hs]
    · rintro ⟨hlow, upper'', hok, hhigh⟩ size hmax (hs | hs)
      · exact hlow size hs
      · rw [select_behind_new hl hs, Except.ok.inj hok, hhigh size hmax hs]

theorem insertCorrect_over (hrs : Ranges (lower ++ upper)) (hl : ∀ g ∈ lower, g.right < new.left)
    (hu : ∀ g ∈ upper, new.left ≤ g.left) (hmax : new.right ≤ selectionMaxCollSize) :
    InsertCorrect (tableOf (lower ++ upper)) new.left new.right new.algo ↔ KeepsBelow (lower ++ upper) new.left new.algo ∧
      KeepsBehind (∃ g ∈ lower ++ upper, g.left ≤ new.right ∧ new.left ≤ g.right) new.left new.right
        (behind new.right upper) := by
  have hupper := hrs.upper
  refine insertCorrect_of_trimUpper (insert_over hrs hl hu hmax) hl hmax (fun _ => keepsBelow_iff hl hu) ?_
  have hfar : ∀ size, new.right < size → select (lower ++ upper) size = select upper size :=
    fun size hs => select_append_of_lt fun g hg => (hl g hg).trans (new.le.trans_lt hs)
  have hkept : keepUpper new.right upper = upper ∧ (∀ g ∈ upper, new.right < g.left) ∧
        ¬ (∃ g ∈ lower ++ upper, g.left ≤ new.right ∧ new.left ≤ g.right) ∨
      keepUpper new.right upper = dropInside new.right upper ∧
        ∃ g ∈ lower ++ upper, g.left ≤ new.right ∧ new.left ≤ g.right := by
    have hmeets : (∀ g ∈ upper, new.right < g.left) →
        ¬ ∃ g ∈ lower ++ upper, g.left ≤ new.right ∧ new.left ≤ g.right := by
      rintro hout ⟨g, hg, hin, hge⟩
      rcases mem_append.mp hg with hg | hg
      · exact absurd (hl g hg) hge.not_gt
      · exact absurd (hout g hg) hin.not_gt
    cases upper with
    | nil => exact .inl ⟨rfl, nofun, hmeets nofun⟩
    | cons h upper =>
      rw [keepUpper]
      split
      · next hin =>
        refine .inr ⟨rfl, h, mem_append_right _ mem_cons_self, hin, ?_⟩
        exact (hu h mem_cons_self).trans h.le
      · next hout =>
        have hall : ∀ g ∈ h :: upper, new.right < g.left := by
          refine forall_mem_cons.mpr ⟨lt_of_not_ge hout, fun g hg => ?_⟩
          have := h.le
          have := hupper.lt g hg
          omega
        exact .inl ⟨rfl, hall, hmeets hall⟩
  rw [← trimUpper_iff hupper hu hkept]
  refine exists_congr fun upper' => and_congr_right fun _ => forall₂_congr fun size _ => ?_
  exact forall_congr' fun hs => by rw [hfar size hs]

theorem insertCorrect_cut (hrs : Ranges (lower ++ g :: upper)) (hl : ∀ g ∈ lower, g.right < new.left)
    (hleft : g.left < new.left) (hge : new.left ≤ g.right) (hin : g.right ≤ new.right)
    (hmax : new.right ≤ selectionMaxCollSize) : InsertCorrect (tableOf (lower ++ g :: upper)) new.left new.right new.algo ↔
      KeepsBelow (lower ++ g :: upper) new.left new.algo ∧
      KeepsBehind (∃ h ∈ lower ++ g :: upper, h.left ≤ new.right ∧ new.left ≤ h.right) new.left new.right
        (behind new.right upper) := by
  have hgm : g ∈ lower ++ g :: upper := mem_append_right _ mem_cons_self
  have hupper := hrs.upper
  have hu : ∀ h ∈ upper, new.left ≤ h.left := fun h hh => (Nat.lt_of_le_of_lt hge (hupper.lt h hh)).le
  have hfar : ∀ size, new.right < size → select (lower ++ g :: upper) size = select upper size := by
    intro size hs
    rw [select_append_of_lt fun g hg => (hl g hg).trans (new.le.trans_lt hs),
      select_cons_of_lt (hin.trans_lt hs)]
  refine insertCorrect_of_trimUpper (insert_cut hrs hleft hge hin hmax) (ranges_cutBefore hrs hrs.lower_lt hleft hge).2 hmax
    (fun upper' => ?_) ?_
  · exact ⟨fun _ => .inr (.inl ⟨g, hgm, hleft, Nat.le_succ_of_le hge⟩), fun _ _ hs => select_cutBefore hleft hge hs⟩
  · rw [← trimUpper_iff hupper.tail hu (.inr ⟨rfl, g, hgm, (Nat.le_of_lt hleft).trans new.le, hge⟩)]
    refine exists_congr fun upper' => and_congr_right fun _ => forall₂_congr fun size _ => ?_
    exact forall_congr' fun hs => by rw [hfar size hs]

theorem insertCorrect_inside (hrs : Ranges (lower ++ g :: upper)) (hleft : g.left < new.left) (hout : new.right < g.right) :
    InsertCorrect (tableOf (lower ++ g :: upper)) new.left new.right new.algo := by
  have hge : new.left ≤ g.right := new.le.trans hout.le
  have hlg := hrs.lower_lt
  have hcut := (ranges_cutBefore hrs hlg hleft hge).2
  refine (insertCorrect_of_yields (insert_inside hrs hleft hout) hcut).mpr ?_
  rintro size - (hs | hs)
  · exact select_cutBefore hleft hge hs
  · rw [select_behind_new hcut hs, select_append_of_lt fun h hh => by
      have := hlg h hh
      have := new.le
      omega]
    exact select_cutAfter hout size

end

/-- **`insert`.** For every well-formed table and every range of sizes, `insert` does what it is for exactly when no size
below the range falls to it and the first range that ends behind it is not lost. -/
theorem insert_correct_iff [DecidableEq α] {rs : List (SizeRange α)} (hrs : Ranges rs) {left right : Nat}
    (hle : left ≤ right) (hmax : right ≤ selectionMaxCollSize) (algo : α) :
    InsertCorrect (tableOf rs) left right algo ↔ KeepsBelow rs left algo ∧
      KeepsBehind (∃ g ∈ rs, g.left ≤ right ∧ left ≤ g.right) left right (behind right rs) := by
  let new : SizeRange α := ⟨left, right, algo, hle⟩
  show InsertCorrect (tableOf rs) new.left new.right new.algo ↔ _
  obtain ⟨lower, upper, rfl, hl, hu⟩ := exists_split hrs left
  have hupper := hrs.upper
  rw [behind_append fun g hg => (Nat.le_of_lt (hl g hg)).trans hle]
  by_cases hover : ∀ g ∈ upper, left ≤ g.left
  · exact insertCorrect_over hrs hl hover hmax
  · -- the first range of the upper ones sticks out
    obtain ⟨g, upper, rfl, hleft⟩ : ∃ g rest, upper = g :: rest ∧ g.left < left := by
      cases upper with
      | nil => exact absurd nofun hover
      | cons g rest =>
        refine ⟨g, rest, rfl, lt_of_not_ge fun hge => hover (forall_mem_cons.mpr ⟨hge, fun h hh => ?_⟩)⟩
        exact (hu g mem_cons_self).trans ((hupper.lt h hh).le)
    have hge := hu g mem_cons_self
    rcases lt_or_ge right g.right with hout | hin
    · refine ⟨fun _ => ⟨.inr (.inl ⟨g, mem_append_right _ mem_cons_self, hleft, Nat.le_succ_of_le hge⟩), ?_⟩,
        fun _ => insertCorrect_inside hrs hleft hout⟩
      have hp : ¬ g.IsPoint := (Nat.lt_of_lt_of_le hleft hge).ne
      rw [behind_cons_of_lt hout, KeepsBehind, if_neg hp]
      exact fun h => absurd h.1 hleft.not_ge
    · rw [behind_cons_of_le hin]
      exact insertCorrect_cut hrs hl hleft hge hin hmax

def threeRanges (a b : Nat) (hab : a < b) (hb : b < selectionMaxCollSize) : List (SizeRange Nat) :=
  [⟨0, a, 0, Nat.zero_le _⟩, ⟨a + 1, b, 1, hab⟩, ⟨b + 1, selectionMaxCollSize, 2, hb⟩]

theorem threeRanges_ranges {a b : Nat} (hab : a < b) (hb : b < selectionMaxCollSize) : Ranges (threeRanges a b hab hb) := by
  refine ⟨?_, ?_⟩
  · simp only [threeRanges, pairwise_cons, mem_cons, not_mem_nil, or_false, forall_eq_or_imp, forall_eq,
      Nat.lt_add_one, true_and, List.Pairwise.nil, and_true, IsEmpty.forall_iff, implies_true]
    omega
  · simp only [threeRanges, mem_cons, not_mem_nil, or_false, forall_eq_or_imp, forall_eq]
    omega

/-- Overriding the sizes from 5 to 15. -/
theorem insert_five_fifteen : InsertCorrect (tableOf (threeRanges 9 20 (by decide) (by decide))) 5 15 3 := by
  refine (insert_correct_iff (threeRanges_ranges _ _) (by decide) (by decide) 3).mpr ⟨.inr (.inl ?_), ?_⟩
  · exact ⟨_, mem_cons_self, by decide, by decide⟩
  · show ¬ (_ ∧ _ ∧ _)
    decide

/-- Overriding up to 19, right before the end of a range, erases an element twice. Overriding the sizes before a single
size takes that size away: it falls to the next range. -/
theorem insert_touching_and_point :
    (insert (tableOf (threeRanges 9 20 (by decide) (by decide))) 5 19 3 = .error .erased ∧
      ¬ InsertCorrect (tableOf (threeRanges 9 20 (by decide) (by decide))) 5 19 3) ∧
    ∃ table', insert (tableOf (threeRanges 9 10 (by decide) (by decide))) 5 9 3 = .ok table' ∧
      getValueFromTable 10 (tableOf (threeRanges 9 10 (by decide) (by decide))) = some 1 ∧
      getValueFromTable 10 table' = some 2 ∧
      ¬ InsertCorrect (tableOf (threeRanges 9 10 (by decide) (by decide))) 5 9 3 := by
  have herr : insert (tableOf (threeRanges 9 20 (by decide) (by decide))) 5 19 3 = .error .erased := by
    decide
  have hok : insert (tableOf (threeRanges 9 10 (by decide) (by decide))) 5 9 3 =
      .ok [(0, 0, .left), (4, 0, .right), (5, 3, .left), (9, 3, .right), (11, 2, .left),
        (selectionMaxCollSize, 2, .right)] := by
    decide
  refine ⟨⟨herr, not_insertCorrect herr⟩, _, hok, by decide, by decide, ?_⟩
  rintro ⟨table', hok', -, -, hout⟩
  have hten := hout 10 (by decide) (.inr (by decide))
  rw [← Except.ok.inj (hok.symm.trans hok')] at hten
  cases hten

end OneCcl
