import OneCcl.Async.Levels

/-!
# Programs in rounds

Most programs that exchange messages are written in rounds, the same rounds on every rank: in a round
each task posts a few sends and receives and acts on its rank's memory, and everything sent in the
round is received in it. `execAll` is the meaning one has in mind for such a program: round after
round, all ranks at once, every send reading the memory its rank had when the round began.

A task of the net does not wait for the others at the end of a round, and within a task only barriers
order the entries, so this meaning is a claim about the program. `InRounds.completes` proves it from
conditions on each round alone (`Round.Good`) and from what may run beside what across rounds
(`InRounds.apart`): every run of the net is finite, gets stuck nowhere, and ends in the memories
`execAll` computes.

The rounds are a way to read the program, not a timetable: tasks of one rank that have nothing to do
with each other may be written one behind the other, and a child task before the entry that stands for
it.
-/

namespace Async

open List

variable {ι ρ χ κ M δ : Type}
variable {l : List (Entry ι χ κ M δ)} {j i k : Nat} {e : Entry ι χ κ M δ} {N : Net ι ρ χ κ M δ} {β : Type*}
  {A' C : List β} {a b : β} {x : ι × Nat} {γ : Type} {f : Nat → γ} {credits : ι → Nat} {c : χ}

/-! ## Race freedom along a text -/

/-- The entries up to the first barrier, the barrier's own entry included. -/
def upToBarrier : List (Entry ι χ κ M δ) → List (Entry ι χ κ M δ)
  | [] => []
  | e :: l => if e.barrier then [e] else e :: upToBarrier l

/-- Every entry is a local action, or independent of all that may run beside it. -/
def RaceFree : List (Entry ι χ κ M δ) → Prop
  | [] => True
  | e :: l =>
    (e.op.isAct = true ∨ e.barrier = true ∨ ∀ e' ∈ upToBarrier l, e.op.Indep e'.op) ∧ RaceFree l

/-- Nothing of the text is open at its end: behind every entry that is no local action stands a
barrier. -/
def Closed : List (Entry ι χ κ M δ) → Prop
  | [] => True
  | e :: l => (e.op.isAct = true ∨ e.barrier = true ∨ ∃ e' ∈ l, e'.barrier = true) ∧ Closed l

theorem upToBarrier_subset (l : List (Entry ι χ κ M δ)) : ∀ e ∈ upToBarrier l, e ∈ l := by
  induction l with
  | nil => exact fun e h => h
  | cons a l ih =>
    intro e he
    unfold upToBarrier at he
    split at he
    · rw [mem_singleton.mp he]
      exact mem_cons_self
    · rcases mem_cons.mp he with rfl | h
      · exact mem_cons_self
      · exact mem_cons_of_mem _ (ih e h)

variable {A B : List (Entry ι χ κ M δ)} {t : ι}

theorem upToBarrier_append (h : ∃ e ∈ A, e.barrier = true)
    (B : List (Entry ι χ κ M δ)) : upToBarrier (A ++ B) = upToBarrier A := by
  induction A with
  | nil =>
    obtain ⟨e, he, -⟩ := h
    cases he
  | cons a A ih =>
    rw [cons_append, upToBarrier, upToBarrier]
    by_cases ha : a.barrier = true
    · rw [if_pos ha, if_pos ha]
    · rw [if_neg ha, if_neg ha, ih]
      obtain ⟨e, he, hb⟩ := h
      rcases mem_cons.mp he with rfl | he
      · exact absurd hb ha
      · exact ⟨e, he, hb⟩

theorem mem_upToBarrier (h : l[j]? = some e) :
    (∃ b e', b < j ∧ l[b]? = some e' ∧ e'.barrier = true) ∨ e ∈ upToBarrier l := by
  induction l generalizing j with
  | nil => cases h
  | cons a l ih =>
    rw [upToBarrier]
    cases j with
    | zero =>
      cases h
      right
      split <;> exact mem_cons_self
    | succ j =>
      by_cases ha : a.barrier = true
      · exact .inl ⟨0, a, Nat.succ_pos _, rfl, ha⟩
      · rw [if_neg ha]
        rcases ih h with ⟨b, e', hb, hbe, hbar⟩ | h'
        · exact .inl ⟨b + 1, e', Nat.succ_lt_succ hb, hbe, hbar⟩
        · exact .inr (mem_cons_of_mem _ h')

/-- Two places of a race free text: the earlier is a local action, a barrier stands between, or they
are independent. -/
theorem RaceFree.get (h : RaceFree l) {e' : Entry ι χ κ M δ} (hi : l[i]? = some e) (hj : l[j]? = some e') (hij : i < j) :
    e.op.isAct = true ∨ (∃ b eb, i ≤ b ∧ b < j ∧ l[b]? = some eb ∧ eb.barrier = true) ∨
      e.op.Indep e'.op := by
  induction l generalizing i j with
  | nil => cases hi
  | cons a l ih =>
    obtain ⟨j, rfl⟩ : ∃ j', j = j' + 1 := ⟨j - 1, by omega⟩
    cases i with
    | zero =>
      obtain rfl : a = e := Option.some.inj hi
      rcases h.1 with h1 | h1 | h1
      · exact .inl h1
      · exact .inr (.inl ⟨0, a, le_rfl, hij, rfl, h1⟩)
      · rcases mem_upToBarrier (l := l) hj with ⟨b, eb, hb, hbe, hbar⟩ | hm
        · exact .inr (.inl ⟨b + 1, eb, Nat.zero_le _, Nat.succ_lt_succ hb, hbe, hbar⟩)
        · exact .inr (.inr (h1 e' hm))
    | succ i =>
      rcases ih h.2 hi hj (Nat.lt_of_succ_lt_succ hij) with h1 | ⟨b, eb, h1, h2, h3, h4⟩ | h1
      · exact .inl h1
      · exact .inr (.inl ⟨b + 1, eb, Nat.succ_le_succ h1, Nat.succ_lt_succ h2, h3, h4⟩)
      · exact .inr (.inr h1)

theorem RaceFree.of_indep (h : l.Pairwise fun e e' => e.op.Indep e'.op) : RaceFree l := by
  induction l with
  | nil => trivial
  | cons e l ih =>
    obtain ⟨he, hl⟩ := pairwise_cons.mp h
    exact ⟨.inr (.inr fun e' h' => he e' (upToBarrier_subset l e' h')), ih hl⟩

theorem RaceFree.append (hA : RaceFree A) (hc : Closed A) (hB : RaceFree B) : RaceFree (A ++ B) := by
  induction A with
  | nil => exact hB
  | cons e A ih =>
    refine ⟨?_, ih hA.2 hc.2⟩
    rcases hc.1 with h | h | h
    · exact .inl h
    · exact .inr (.inl h)
    · show _ ∨ _ ∨ ∀ e' ∈ upToBarrier (A ++ B), _
      rw [upToBarrier_append h]
      exact hA.1

theorem Closed.append (hA : Closed A) (hB : Closed B) : Closed (A ++ B) := by
  induction A with
  | nil => exact hB
  | cons e A ih =>
    refine ⟨?_, ih hA.2⟩
    rcases hA.1 with h | h | ⟨e', he', hb⟩
    · exact .inl h
    · exact .inr (.inl h)
    · exact .inr (.inr ⟨e', mem_append_left _ he', hb⟩)

theorem Closed.get (hA : Closed A) (hi : A[i]? = some e) :
    e.op.isAct = true ∨ ∃ b eb, i ≤ b ∧ b < A.length ∧ A[b]? = some eb ∧ eb.barrier = true := by
  induction A generalizing i with
  | nil => cases hi
  | cons a A ih =>
    cases i with
    | zero =>
      obtain rfl : a = e := Option.some.inj hi
      rcases hA.1 with h | h | ⟨eb, hb, hbar⟩
      · exact .inl h
      · exact .inr ⟨0, a, le_rfl, Nat.succ_pos _, rfl, h⟩
      · obtain ⟨b, hlt, hb⟩ := getElem_of_mem hb
        exact .inr ⟨b + 1, eb, Nat.zero_le _, Nat.succ_lt_succ hlt, (getElem?_eq_getElem hlt).trans (congrArg some hb), hbar⟩
    | succ i =>
      rcases ih hA.2 hi with h | ⟨b, eb, h1, h2, h3, h4⟩
      · exact .inl h
      · exact .inr ⟨b + 1, eb, Nat.succ_le_succ h1, Nat.succ_lt_succ h2, h3, h4⟩

theorem Closed.dep (hA : Closed A) (hprog : N.prog t = A ++ B)
    (hi : i < A.length) (hj : A.length ≤ j) : N.Dep (t, i) (t, j) := by
  have hget : ∀ {b : Nat} {eb}, A[b]? = some eb → (N.prog t)[b]? = some eb := by
    intro b eb hb
    rw [hprog, getElem?_append_left (lt_of_get hb), hb]
  have hAi := getElem?_eq_getElem hi
  rcases hA.get hAi with h | ⟨b, eb, h1, h2, h3, h4⟩
  · have hop : N.op (t, i) = some A[i].op := congrArg (Option.map Entry.op) (hget hAi)
    cases ho : A[i].op with
    | act f => exact .act (hop.trans (congrArg some ho)) (hi.trans_le hj)
    | _ => rw [ho] at h; cases h
  · refine .barrier h1 (h2.trans_le hj) ?_
    show ((N.prog t)[b]?).any _ = true
    rw [hget h3]
    exact h4

theorem RaceFree.apart (h : RaceFree (N.prog t)) (hij : i < j) (hj : j < (N.prog t).length) :
    N.Dep (t, i) (t, j) ∨ N.Indep (t, i) (t, j) := by
  obtain ⟨e, he⟩ : ∃ e, (N.prog t)[i]? = some e := ⟨_, getElem?_eq_getElem (hij.trans hj)⟩
  obtain ⟨e', he'⟩ : ∃ e', (N.prog t)[j]? = some e' := ⟨_, getElem?_eq_getElem hj⟩
  have hop : N.op (t, i) = some e.op := congrArg (Option.map Entry.op) he
  have hop' : N.op (t, j) = some e'.op := congrArg (Option.map Entry.op) he'
  rcases h.get he he' hij with ha | ⟨b, eb, h1, h2, h3, h4⟩ | hi
  · left
    cases ho : e.op with
    | act f => exact .act (hop.trans (congrArg some ho)) hij
    | _ => rw [ho] at ha; cases ha
  · refine .inl (.barrier h1 h2 ?_)
    show ((N.prog t)[b]?).any _ = true
    rw [h3]
    exact h4
  · right
    intro o o' ho ho'
    rw [hop] at ho
    rw [hop'] at ho'
    rw [← Option.some.inj ho, ← Option.some.inj ho']
    exact hi

/-! ## Rounds -/

/-- Which tasks a rank has, in the order in which a round is read, and which tasks a channel connects. -/
structure Layout (ι ρ χ : Type) where
  rank : ι → ρ
  team : ρ → List ι
  src : χ → ι
  dst : χ → ι
  nodup : ∀ r, (team r).Nodup
  rank_eq : ∀ r, ∀ t ∈ team r, rank t = r

abbrev Round (ι χ κ M δ : Type) : Type := ι → List (Entry ι χ κ M δ)

section

variable (T : Layout ι ρ χ) {Rs : List (Round ι χ κ M δ)} {y : Entry ι χ κ M δ × Nat × δ} {A B : List β} {R : Round ι χ κ M δ}
  {read : M → δ}

/-! ## Where the entries of a round stand -/

def roundOf : List (Round ι χ κ M δ) → ι → Nat → Nat
  | [], _, _ => 0
  | R :: Rs, t, i => if i < (R t).length then 0 else roundOf Rs t (i - (R t).length) + 1

theorem roundOf_eq (A : List (Round ι χ κ M δ)) (R : Round ι χ κ M δ) (B : List (Round ι χ κ M δ))
    (hk : k < (R t).length) : roundOf (A ++ R :: B) t ((A.flatMap (· t)).length + k) = A.length := by
  induction A with
  | nil => simp [roundOf, hk]
  | cons R' A ih =>
    rw [cons_append, roundOf, flatMap_cons, length_append, if_neg (by omega),
      show (R' t).length + (A.flatMap (· t)).length + k - (R' t).length = (A.flatMap (· t)).length + k by omega, ih,
      length_cons]

theorem roundOf_mono (Rs : List (Round ι χ κ M δ)) (t : ι) (h : i ≤ j) : roundOf Rs t i ≤ roundOf Rs t j := by
  induction Rs generalizing i j with
  | nil => exact le_rfl
  | cons R Rs ih =>
    rw [roundOf, roundOf]
    split
    · exact Nat.zero_le _
    · rw [if_neg (by omega)]
      exact Nat.succ_le_succ (ih (by omega))

theorem lt_of_roundOf_lt (h : roundOf Rs t i < roundOf Rs t j) : i < j := by
  by_contra hge
  exact absurd (roundOf_mono Rs t (not_lt.mp hge)) h.not_ge

theorem exists_place (hi : i < (Rs.flatMap (· t)).length) :
    ∃ A R B k e, Rs = A ++ R :: B ∧ i = (A.flatMap (· t)).length + k ∧ (R t)[k]? = some e ∧
      roundOf Rs t i = A.length := by
  induction Rs generalizing i with
  | nil => exact absurd hi (Nat.not_lt_zero _)
  | cons R Rs ih =>
    rw [flatMap_cons, length_append] at hi
    rw [roundOf]
    rcases lt_or_ge i (R t).length with hlt | hge
    · exact ⟨[], R, Rs, i, _, rfl, (Nat.zero_add i).symm, getElem?_eq_getElem hlt, if_pos hlt⟩
    · obtain ⟨A, R', B, k, e, rfl, hk, he, hround⟩ := ih (i := i - (R t).length) (by omega)
      refine ⟨R :: A, R', B, k, e, rfl, ?_, he, ?_⟩
      · rw [flatMap_cons, length_append]
        omega
      · rw [if_neg (by omega), hround, length_cons]

theorem exists_between (h : A ++ a :: B = A' ++ b :: C) (hlt : A.length < A'.length) : ∃ D, A' = A ++ a :: D := by
  rcases append_eq_append_iff.mp h with ⟨D, h1, h2⟩ | ⟨D, h1, h2⟩
  · cases D with
    | nil => rw [h1, append_nil] at hlt; exact absurd hlt (lt_irrefl _)
    | cons _ D => exact ⟨D, by rw [h1, (cons.inj h2).1]⟩
  · rw [h1, length_append] at hlt
    omega

theorem length_eq_of_pairwise {R : β → β → Prop} {l : List β} (h : l.Pairwise R) (ha : l = A ++ a :: B)
    (hb : l = A' ++ b :: C) (hab : ¬ R a b) (hba : ¬ R b a) : A.length = A'.length := by
  have hlt : ∀ {A A' B C : List β} {a b : β}, l = A ++ a :: B → l = A' ++ b :: C → ¬ R a b → ¬ A.length < A'.length := by
    intro A A' B C a b ha hb hab hlt
    obtain ⟨D, rfl⟩ := exists_between (ha.symm.trans hb) hlt
    rw [hb, append_assoc] at h
    have h := (pairwise_append.mp h).2.1
    exact hab ((pairwise_cons.mp h).1 b (mem_append_right _ mem_cons_self))
  have h1 := hlt ha hb hab
  have h2 := hlt hb ha hba
  omega

/-- The places of a round, behind the rounds before it. -/
def roundOrder (A : List (Round ι χ κ M δ)) (R : Round ι χ κ M δ) (r : ρ) : List (ι × Nat) :=
  (T.team r).flatMap fun t => (range (R t).length).map fun k => (t, (A.flatMap (· t)).length + k)

/-- The places of all rounds, behind the rounds before them. -/
def orderFrom : List (Round ι χ κ M δ) → List (Round ι χ κ M δ) → ρ → List (ι × Nat)
  | _, [], _ => []
  | A, R :: B, r => roundOrder T A R r ++ orderFrom (A ++ [R]) B r

variable {T}

theorem mem_roundOrder {A : List (Round ι χ κ M δ)} {R : Round ι χ κ M δ} {r : ρ} :
    x ∈ roundOrder T A R r ↔ x.1 ∈ T.team r ∧ ∃ k < (R x.1).length, x.2 = (A.flatMap (· x.1)).length + k := by
  obtain ⟨t, i⟩ := x
  simp only [roundOrder, mem_flatMap, mem_map, mem_range, Prod.mk.injEq]
  constructor
  · rintro ⟨t', ht, k, hk, rfl, rfl⟩
    exact ⟨ht, k, hk, rfl⟩
  · rintro ⟨ht, k, hk, rfl⟩
    exact ⟨t, ht, k, hk, rfl, rfl⟩

theorem mem_orderFrom {A B : List (Round ι χ κ M δ)} {r : ρ} :
    x ∈ orderFrom T A B r ↔ ∃ C R D, B = C ++ R :: D ∧ x ∈ roundOrder T (A ++ C) R r := by
  induction B generalizing A with
  | nil =>
    constructor
    · intro h
      cases h
    · rintro ⟨C, R, D, h, -⟩
      exact absurd h (by simp)
  | cons R B ih =>
    rw [orderFrom, mem_append, ih]
    constructor
    · rintro (h | ⟨C, R', D, rfl, h⟩)
      · exact ⟨[], R, B, rfl, by rwa [append_nil]⟩
      · refine ⟨R :: C, R', D, rfl, ?_⟩
        rwa [append_assoc] at h
    · rintro ⟨C, R', D, h, hx⟩
      cases C with
      | nil =>
        obtain ⟨rfl, rfl⟩ := cons.inj h
        rw [append_nil] at hx
        exact .inl hx
      | cons R'' C =>
        obtain ⟨rfl, rfl⟩ := cons.inj h
        refine .inr ⟨C, R', D, rfl, ?_⟩
        rwa [append_assoc]

theorem orderFrom_append (A B C : List (Round ι χ κ M δ)) (r : ρ) :
    orderFrom T A (B ++ C) r = orderFrom T A B r ++ orderFrom T (A ++ B) C r := by
  induction B generalizing A with
  | nil => rw [append_nil]; rfl
  | cons R B ih => rw [cons_append, orderFrom, orderFrom, ih, append_assoc, append_assoc]; rfl

theorem orderFrom_increasing (A B : List (Round ι χ κ M δ)) (r : ρ) :
    (orderFrom T A B r).Pairwise fun x y => x.1 = y.1 → x.2 < y.2 := by
  induction B generalizing A with
  | nil => exact List.Pairwise.nil
  | cons R B ih =>
    refine pairwise_append.mpr ⟨?_, ih (A ++ [R]), fun x hx y hy hxy => ?_⟩
    · refine pairwise_flatMap.mpr ⟨fun t _ => ?_, (T.nodup r).imp fun {t t'} hne x hx y hy hxy => ?_⟩
      · refine pairwise_map.mpr (pairwise_lt_range.imp fun {i j} hij _ => ?_)
        exact Nat.add_lt_add_left hij _
      · obtain ⟨i, -, rfl⟩ := mem_map.mp hx
        obtain ⟨j, -, rfl⟩ := mem_map.mp hy
        exact absurd hxy hne
    · obtain ⟨-, k, hk, hxk⟩ := mem_roundOrder.mp hx
      obtain ⟨C, R', D, -, hy'⟩ := mem_orderFrom.mp hy
      obtain ⟨-, k', -, hyk⟩ := mem_roundOrder.mp hy'
      rw [hxk, hyk, ← hxy]
      simp only [flatMap_append, flatMap_cons, flatMap_nil, length_append, append_nil]
      omega

theorem orderFrom_nodup (A B : List (Round ι χ κ M δ)) (r : ρ) : (orderFrom T A B r).Nodup := by
  refine (orderFrom_increasing A B r).imp fun {x y} h hxy => ?_
  have := h (congrArg Prod.fst hxy)
  rw [hxy] at this
  exact lt_irrefl _ this

theorem map_range_getElem? {β : Type} {l : List β} {g : β → γ} (h : ∀ k e, l[k]? = some e → f k = g e) :
    (range l.length).map f = l.map g := by
  refine ext_getElem (by rw [length_map, length_map, length_range]) fun k h1 h2 => ?_
  rw [length_map] at h2
  rw [getElem_map, getElem_map, getElem_range, h k _ (getElem?_eq_getElem h2)]

theorem roundOrder_map {A : List (Round ι χ κ M δ)} {R : Round ι χ κ M δ} {r : ρ} {f : ι × Nat → γ}
    {g : Entry ι χ κ M δ → γ} (h : ∀ t k e, (R t)[k]? = some e → f (t, (A.flatMap (· t)).length + k) = g e) :
    (roundOrder T A R r).map f = ((T.team r).flatMap R).map g := by
  rw [roundOrder, map_flatMap, map_flatMap]
  refine congrArg (fun F => (T.team r).flatMap F) (funext fun t => ?_)
  rw [map_map]
  exact map_range_getElem? fun k e he => h t k e he

namespace Net

theorem round_mono {A A' B B' : List (Round ι χ κ M δ)} {R' : Round ι χ κ M δ} {k' : Nat}
    (hRs : A ++ R :: B = A' ++ R' :: B') (hi : i = (A.flatMap (· t)).length + k)
    (hj : j = (A'.flatMap (· t)).length + k') (hk' : k' < (R' t).length) (hij : i ≤ j) :
    A.length < A'.length ∨ (A = A' ∧ R = R') := by
  rcases lt_trichotomy A.length A'.length with hlt | heq | hgt
  · exact .inl hlt
  · obtain ⟨rfl, hR⟩ := append_inj hRs heq
    exact .inr ⟨rfl, (cons.inj hR).1⟩
  · -- then the later round would begin after `j`
    exfalso
    obtain ⟨C, rfl⟩ := exists_between hRs.symm hgt
    rw [flatMap_append, length_append, flatMap_cons, length_append] at hi
    omega

section

variable {N : Net ι ρ χ κ M δ} {Rs : List (Round ι χ κ M δ)} (hprog : ∀ t, N.prog t = Rs.flatMap (· t))

include hprog

theorem exists_round (hx : x.2 < (N.prog x.1).length) :
    ∃ A R B k e, Rs = A ++ R :: B ∧ x.2 = (A.flatMap (· x.1)).length + k ∧ (R x.1)[k]? = some e ∧
      (N.prog x.1)[x.2]? = some e ∧ roundOf Rs x.1 x.2 = A.length := by
  rw [hprog] at hx
  obtain ⟨A, R, B, k, e, hRs, hk, he, hround⟩ := exists_place hx
  refine ⟨A, R, B, k, e, hRs, hk, he, ?_, hround⟩
  rw [hprog, hRs, hk, flatMap_append, flatMap_cons, getElem?_append_right (Nat.le_add_right ..),
    Nat.add_sub_cancel_left, getElem?_append_left (lt_of_get he), he]

end

end Net

/-! ## What a round does -/

variable (T) [DecidableEq χ]

/-- A round as a net can run it: every channel is used by its own two tasks, at most once, from both
sides, with a message that fits; what a rank has to do in the round is independent, a task waits only at
the end of the round, a meeting is all a task does in its round, and its credits are enough. -/
structure Round.Good (R : Round ι χ κ M δ) (credits : ι → Nat) : Prop where
  team : ∀ t, R t ≠ [] → t ∈ T.team (T.rank t)
  sender : ∀ t, ∀ e ∈ R t, ∀ c read, e.op = .send c read → t = T.src c
  receiver : ∀ t, ∀ e ∈ R t, ∀ c fits store finish, e.op = .recv c fits store finish → t = T.dst c
  once : ∀ c, ((R (T.src c)).filter fun e => e.op.sendsOn c).length ≤ 1
  matched : ∀ c, ((R (T.src c)).filter fun e => e.op.sendsOn c).length =
    ((R (T.dst c)).filter fun e => e.op.recvsOn c).length
  fits : ∀ c, ∀ e ∈ R (T.src c), ∀ e' ∈ R (T.dst c), ∀ read fits store finish, e.op = .send c read →
    e'.op = .recv c fits store finish → ∀ m, fits (read m) = true
  indep : ∀ r, ((T.team r).flatMap R).Pairwise fun e e' => e.op.Indep e'.op
  wait : ∀ t l e l', R t = l ++ e :: l' → e.barrier = true → l' = [] ∨ ∀ e' ∈ l ++ [e], e'.op.isAct = true
  alone : ∀ t, ∀ e ∈ R t, ∀ k, e.op = .sync k → R t = [e]
  small : ∀ t, (R t).length ≤ credits t

variable {T} in
theorem Net.ready_of_rounds {N : Net ι ρ χ κ M δ} (hprog : ∀ t, N.prog t = Rs.flatMap (· t))
    (hgood : ∀ R ∈ Rs, R.Good T N.credits) (x : ι × Nat) (hx : x.2 < (N.prog x.1).length) :
    N.Ready (fun x => roundOf Rs x.1 x.2) x (roundOf Rs x.1 x.2) := by
  obtain ⟨A, R, B, k, e, hRs, hj, hk, -, hround⟩ := exists_round hprog hx
  have g := hgood R (by rw [hRs]; simp)
  have hkl : k < (R x.1).length := lt_of_get hk
  constructor
  · intro i b hib hbx hbar hna
    obtain ⟨Ai, Ri, Bi, ki, ei, hRsi, hi, hki, hpi, hroundi⟩ :=
      exists_round hprog (x := (x.1, i)) (show i < (N.prog x.1).length by omega)
    obtain ⟨Ab, Rb, Bb, kb, eb, hRsb, hb, hkb, hpb, -⟩ :=
      exists_round hprog (x := (x.1, b)) (show b < (N.prog x.1).length by omega)
    have hkbl : kb < (Rb x.1).length := lt_of_get hkb
    show roundOf Rs x.1 i < _
    rw [show roundOf Rs x.1 i = _ from hroundi, hround]
    rcases round_mono (hRsi.symm.trans hRsb) hi hb hkbl hib with hlt | ⟨rfl, rfl⟩
    · rcases round_mono (hRsb.symm.trans hRs) hb hj hkl hbx.le with hlt' | ⟨rfl, rfl⟩
      · exact hlt.trans hlt'
      · exact hlt
    · rcases round_mono (hRsb.symm.trans hRs) hb hj hkl hbx.le with hlt' | ⟨rfl, rfl⟩
      · exact hlt'
      · -- all three in one round: nothing but local actions stands up to a barrier in mid-round
        exfalso
        simp only at hi hb
        have hsplit : Ri x.1 = (Ri x.1).take kb ++ eb :: (Ri x.1).drop (kb + 1) := by
          have h1 := take_append_drop kb (Ri x.1)
          rw [drop_eq_getElem_cons hkbl, (List.getElem?_eq_some_iff.mp hkb).2] at h1
          exact h1.symm
        have hebar : eb.barrier = true := by
          have hbar' : ((N.prog x.1)[b]?).any (·.barrier) = true := hbar
          rwa [hpb] at hbar'
        rcases g.wait x.1 _ eb _ hsplit hebar with hnil | hall
        · have := congrArg length hnil
          rw [length_drop, length_nil] at this
          omega
        · have hei : ei ∈ (Ri x.1).take kb ++ [eb] := by
            rcases (show ki ≤ kb by omega).lt_or_eq with hlt | rfl
            · refine mem_append_left _ (mem_of_getElem? (i := ki) ?_)
              rw [getElem?_take_of_lt hlt, hki]
            · rw [hki] at hkb
              cases hkb
              exact mem_append_right _ mem_cons_self
          have hact := hall ei hei
          cases hop : ei.op with
          | act f => exact hna ⟨f, (congrArg (Option.map Entry.op) hpi).trans (congrArg some hop)⟩
          | _ => rw [hop] at hact; cases hact
  · intro p hp
    -- what is counted stands in the entry's own round, before it
    have hfront : (range (A.flatMap (· x.1)).length).countP p = 0 := by
      refine countP_eq_zero.mpr fun i hi hpi => ?_
      have hi' := mem_range.mp hi
      obtain ⟨-, hle⟩ := hp i (by omega) hpi
      obtain ⟨Ai, Ri, Bi, ki, ei, hRsi, hik, hki, -, hroundi⟩ :=
        exists_round hprog (x := (x.1, i)) (show i < (N.prog x.1).length by omega)
      rw [hround, show roundOf Rs x.1 i = _ from hroundi] at hle
      rcases round_mono (hRsi.symm.trans hRs) hik hj hkl (show i ≤ x.2 by omega) with hlt | ⟨rfl, rfl⟩
      · exact absurd hle hlt.not_ge
      · have hik' : i = (Ai.flatMap (· x.1)).length + ki := hik
        omega
    calc (range x.2).countP p
        = ((range k).map ((A.flatMap (· x.1)).length + ·)).countP p := by
          rw [hj, range_add, countP_append, hfront, Nat.zero_add]
      _ ≤ k := by
          refine Nat.le_trans countP_le_length ?_
          rw [length_map, length_range]
      _ < N.credits x.1 := hkl.trans_le (g.small x.1)

def Op.sent : Op ι χ κ M δ → M → Option δ
  | .send _ read, m => some (read m)
  | _, _ => none

variable [Inhabited δ]

namespace Round

/-- What is sent on a channel in a round, read off the memories the round begins with. -/
def out (R : Round ι χ κ M δ) (σ : ρ → M) (c : χ) : δ :=
  (((R (T.src c)).find? fun e => e.op.sendsOn c).bind fun e => e.op.sent (σ (T.rank (T.src c)))).getD default

def msg (R : Round ι χ κ M δ) (σ : ρ → M) : Op ι χ κ M δ → δ
  | .send c _ => R.out T σ c
  | .recv c _ _ _ => R.out T σ c
  | _ => default

def exec (R : Round ι χ κ M δ) (σ : ρ → M) (r : ρ) : M :=
  applyAll (fun e => e.op.effect (R.msg T σ e.op) .done) ((T.team r).flatMap R) (σ r)

end Round

/-- Round after round, on all ranks at once. -/
def execAll : List (Round ι χ κ M δ) → (ρ → M) → ρ → M
  | [], σ => σ
  | R :: Rs, σ => execAll Rs (R.exec T σ)

theorem execAll_append (A B : List (Round ι χ κ M δ)) (σ : ρ → M) : execAll T (A ++ B) σ = execAll T B (execAll T A σ) := by
  induction A generalizing σ with
  | nil => rfl
  | cons R A ih => exact ih _

/-- A task's text, every entry with the number of its round and its message. -/
def tagged : List (Round ι χ κ M δ) → Nat → (ρ → M) → ι → List (Entry ι χ κ M δ × Nat × δ)
  | [], _, _, _ => []
  | R :: Rs, ℓ, σ, t => (R t).map (fun e => (e, ℓ, R.msg T σ e.op)) ++ tagged Rs (ℓ + 1) (R.exec T σ) t

theorem tagged_map_fst (Rs : List (Round ι χ κ M δ)) (ℓ : Nat) (σ : ρ → M) (t : ι) :
    (tagged T Rs ℓ σ t).map (·.1) = Rs.flatMap (· t) := by
  induction Rs generalizing ℓ σ with
  | nil => rfl
  | cons R Rs ih =>
    rw [tagged, map_append, ih, flatMap_cons, map_map]
    congr 1
    exact map_id _

theorem tagged_locate {ℓ : Nat} {σ : ρ → M} (h : (tagged T Rs ℓ σ t)[j]? = some y) :
    ∃ A R B k, Rs = A ++ R :: B ∧ j = (A.flatMap (· t)).length + k ∧ (R t)[k]? = some y.1 ∧
      y.2.1 = ℓ + A.length ∧ y.2.2 = R.msg T (execAll T A σ) y.1.op := by
  induction Rs generalizing ℓ σ j with
  | nil => cases h
  | cons R Rs ih =>
    rw [tagged] at h
    rcases lt_or_ge j (R t).length with hj | hj
    · rw [getElem?_append_left (by rwa [length_map]), getElem?_map] at h
      obtain ⟨e, he, rfl⟩ := Option.map_eq_some_iff.mp h
      exact ⟨[], R, Rs, j, rfl, (Nat.zero_add _).symm, he, rfl, rfl⟩
    · rw [getElem?_append_right (by rwa [length_map]), length_map] at h
      obtain ⟨A, R', B, k, rfl, hjk, he, h1, h2⟩ := ih h
      refine ⟨R :: A, R', B, k, rfl, ?_, he, ?_, h2⟩
      · rw [flatMap_cons, length_append]
        omega
      · rw [h1, length_cons]
        omega

/-! ## The plan of a program in rounds -/

variable {T}

theorem Round.Good.out_eq (g : R.Good T credits)
    (he : e ∈ R (T.src c)) (hop : e.op = .send c read) (σ : ρ → M) : R.out T σ c = read (σ (T.rank (T.src c))) := by
  have hmem : e ∈ (R (T.src c)).filter fun e => e.op.sendsOn c :=
    mem_filter.mpr ⟨he, by rw [hop]; exact decide_eq_true rfl⟩
  have h1 := g.once c
  unfold Round.out
  rw [← head?_filter]
  cases hl : (R (T.src c)).filter fun e => e.op.sendsOn c with
  | nil => rw [hl] at hmem; cases hmem
  | cons a l =>
    rw [hl] at hmem h1
    obtain rfl : l = [] := length_eq_zero_iff.mp (by rw [length_cons] at h1; omega)
    obtain rfl := mem_singleton.mp hmem
    obtain ⟨op, b⟩ := e
    obtain rfl : op = .send c read := hop
    rfl

theorem Round.Good.fits_msg (g : R.Good T credits) (he : e ∈ R t) (σ : ρ → M) : e.op.Fits (R.msg T σ e.op) := by
  cases ho : e.op with
  | recv c fits store finish =>
    obtain rfl : t = T.dst c := g.receiver t e he c fits store finish ho
    -- somebody sends on the channel in this round
    have hpos : 0 < ((R (T.src c)).filter fun e => e.op.sendsOn c).length := by
      rw [g.matched c]
      exact length_pos_of_mem (mem_filter.mpr ⟨he, by rw [ho]; exact decide_eq_true rfl⟩)
    obtain ⟨e', he'⟩ := exists_mem_of_length_pos hpos
    obtain ⟨he', hs⟩ := mem_filter.mp he'
    cases ho' : e'.op with
    | send c' read =>
      rw [ho'] at hs
      obtain rfl : c' = c := of_decide_eq_true hs
      show fits (R.out T _ c') = true
      rw [g.out_eq he' ho']
      exact g.fits c' e' he' e he read fits store finish ho' ho _
    | _ => rw [ho'] at hs; cases hs
  | _ => trivial

theorem tagged_paired (good : ∀ R ∈ Rs, R.Good T credits) (ℓ : Nat) (σ : ρ → M) (c : χ) :
    ((tagged T Rs ℓ σ (T.src c)).filter fun y => y.1.op.sendsOn c).map (·.2) =
      ((tagged T Rs ℓ σ (T.dst c)).filter fun y => y.1.op.recvsOn c).map (·.2) := by
  induction Rs generalizing ℓ σ with
  | nil => rfl
  | cons R Rs ih =>
    have g := good R mem_cons_self
    -- in one round, either side has as many copies of the one message
    have block : ∀ (p : Op ι χ κ M δ → Bool) (l : List (Entry ι χ κ M δ)),
        (∀ e ∈ l, p e.op = true → R.msg T σ e.op = R.out T σ c) →
        ((l.map fun e => (e, ℓ, R.msg T σ e.op)).filter fun y => p y.1.op).map (·.2) =
          replicate (l.filter fun e => p e.op).length (ℓ, R.out T σ c) := by
      intro p l hp
      refine eq_replicate_iff.mpr ⟨?_, ?_⟩
      · rw [filter_map, length_map, length_map]
        rfl
      · intro b hb
        rw [filter_map, map_map] at hb
        obtain ⟨e, he, rfl⟩ := mem_map.mp hb
        obtain ⟨hel, hpe⟩ := mem_filter.mp he
        exact congrArg (Prod.mk ℓ) (hp e hel hpe)
    rw [tagged, tagged, filter_append, filter_append, map_append, map_append,
      ih fun R' h => good R' (mem_cons_of_mem _ h), block (Op.sendsOn c), block (Op.recvsOn c),
      g.matched c]
    · intro e _ he
      cases hop : e.op with
      | recv c' fits store finish =>
        rw [hop] at he
        obtain rfl : c' = c := of_decide_eq_true he
        rfl
      | _ => rw [hop] at he; cases he
    · intro e _ he
      cases hop : e.op with
      | send c' read =>
        rw [hop] at he
        obtain rfl : c' = c := of_decide_eq_true he
        rfl
      | _ => rw [hop] at he; cases he

theorem range_filter_map {β : Type} (L : List β) {q : Nat → Bool} {p : β → Bool} {g : β → γ}
    (h : ∀ i y, L[i]? = some y → q i = p y ∧ f i = g y) : ((range L.length).filter q).map f = (L.filter p).map g := by
  induction L generalizing q f with
  | nil => rfl
  | cons y L ih =>
    have hy := h 0 y rfl
    have hL := ih (q := q ∘ Nat.succ) (f := f ∘ Nat.succ) fun i z hz => h (i + 1) z hz
    rw [length_cons, range_succ_eq_map, filter_cons, filter_cons, hy.1]
    have htail : ((map Nat.succ (range L.length)).filter q).map f = (L.filter p).map g := by
      rw [← hL, filter_map, map_map]
    cases p y with
    | true => exact congrArg₂ cons hy.2 htail
    | false => exact htail

variable (T Rs) in
def Net.InRounds.tag (mem : ρ → M) (x : ι × Nat) : Nat × δ := ((tagged T Rs 0 mem x.1)[x.2]?).elim (0, default) (·.2)

theorem Net.InRounds.tag_eq {mem : ρ → M} (hy : (tagged T Rs 0 mem t)[i]? = some y) : tag T Rs mem (t, i) = y.2 := by
  show ((tagged T Rs 0 mem t)[i]?).elim _ _ = _
  rw [hy]
  rfl

variable [DecidableEq ι] [DecidableEq ρ]

variable (T) in
/-- A net written in rounds, run from the given memories. Across rounds, the entries of a rank wait for each other,
are independent, or are a send and what is done after it was read. The entries of a meeting stand in one round. A child
task stands in front of the entry that stands for it, which can be started when it is the child's turn. -/
structure Net.InRounds (N : Net ι ρ χ κ M δ) (mem : ρ → M) (Rs : List (Round ι χ κ M δ)) : Prop where
  rank : ∀ t, N.rank t = T.rank t
  prog : ∀ t, N.prog t = Rs.flatMap (· t)
  good : ∀ R ∈ Rs, R.Good T N.credits
  apart : ∀ x y : ι × Nat, x.2 < (N.prog x.1).length → y.2 < (N.prog y.1).length → N.rank x.1 = N.rank y.1 →
    roundOf Rs x.1 x.2 < roundOf Rs y.1 y.2 → N.Dep x y ∨ N.Indep x y ∨ N.ReadFirst mem x y
  meet : ∀ x y k, N.op x = some (.sync k) → N.op y = some (.sync k) → roundOf Rs x.1 x.2 = roundOf Rs y.1 y.2
  sub_above : ∀ p t, N.op p = some (.sub t) → ∀ j < (N.prog t).length, roundOf Rs t j < roundOf Rs p.1 p.2
  sub_ready : ∀ p t, N.op p = some (.sub t) → ∀ y : ι × Nat, N.Under t y.1 → y.2 < (N.prog y.1).length →
    N.Ready (fun x => roundOf Rs x.1 x.2) p (roundOf Rs y.1 y.2)
  sub_deep : ∃ depth : ι → Nat, ∀ p t, N.op p = some (.sub t) → depth p.1 < depth t

namespace Net.InRounds

variable {N : Net ι ρ χ κ M δ} {mem : ρ → M} {Rs : List (Round ι χ κ M δ)} (h : N.InRounds T mem Rs)

include h

theorem prog_eq (t : ι) : N.prog t = (tagged T Rs 0 mem t).map (·.1) := by
  rw [tagged_map_fst, h.prog]

theorem length_tagged (t : ι) : (tagged T Rs 0 mem t).length = (N.prog t).length := by
  rw [h.prog_eq, length_map]

theorem op_eq (hy : (tagged T Rs 0 mem t)[i]? = some y) : N.op (t, i) = some y.1.op := by
  show ((N.prog t)[i]?).map _ = _
  rw [h.prog_eq, getElem?_map, hy]
  rfl

theorem exists_tagged (hx : x.2 < (N.prog x.1).length) : ∃ y, (tagged T Rs 0 mem x.1)[x.2]? = some y := by
  rw [← h.length_tagged] at hx
  exact ⟨_, getElem?_eq_getElem hx⟩

theorem locate (hx : x.2 < (N.prog x.1).length) :
    ∃ A R B k e, Rs = A ++ R :: B ∧ R.Good T N.credits ∧ x.2 = (A.flatMap (· x.1)).length + k ∧
      (R x.1)[k]? = some e ∧ (N.prog x.1)[x.2]? = some e ∧ N.op x = some e.op ∧
      tag T Rs mem x = (A.length, R.msg T (execAll T A mem) e.op) ∧ roundOf Rs x.1 x.2 = A.length := by
  obtain ⟨y, hy⟩ := h.exists_tagged hx
  obtain ⟨A, R, B, k, hRs, hj, hk, h1, h2⟩ := tagged_locate T hy
  refine ⟨A, R, B, k, y.1, hRs, h.good R (by rw [hRs]; simp), hj, hk, ?_, h.op_eq hy, ?_, ?_⟩
  · rw [h.prog_eq, getElem?_map, hy]
    rfl
  · rw [tag_eq hy, ← h2, ← Nat.zero_add A.length, ← h1]
  · rw [hRs, hj]
    exact roundOf_eq A R B (lt_of_get hk)

theorem tag_fst (hx : x.2 < (N.prog x.1).length) : (tag T Rs mem x).1 = roundOf Rs x.1 x.2 := by
  obtain ⟨A, R, B, k, e, -, -, -, -, -, -, htag, hround⟩ := h.locate hx
  rw [htag, hround]

variable {A B : List (Round ι χ κ M δ)}

omit [Inhabited δ] in
theorem lt_length (hRs : Rs = A ++ R :: B)
    (hk : k < (R x.1).length) (hx : x.2 = (A.flatMap (· x.1)).length + k) : x.2 < (N.prog x.1).length := by
  rw [h.prog, hRs, hx, flatMap_append, flatMap_cons, length_append, length_append]
  omega

theorem at_place (hRs : Rs = A ++ R :: B) (hk : (R t)[k]? = some e) : N.op (t, (A.flatMap (· t)).length + k) = some e.op ∧
      tag T Rs mem (t, (A.flatMap (· t)).length + k) = (A.length, R.msg T (execAll T A mem) e.op) := by
  have hlt : k < (R t).length := lt_of_get hk
  have hlen := h.lt_length hRs (x := (t, (A.flatMap (· t)).length + k)) hlt rfl
  obtain ⟨A', R', B', k', e', hRs', -, hx, hk', -, hop, htag, hround⟩ := h.locate (x := (t, _)) hlen
  -- the place determines the round
  have hlenA : A'.length = A.length := by
    rw [← hround, hRs]
    exact roundOf_eq A R B hlt
  obtain ⟨rfl, hR⟩ := append_inj (hRs'.symm.trans hRs) hlenA
  obtain ⟨rfl, -⟩ := cons.inj hR
  obtain rfl : k' = k := by
    simp only at hx
    omega
  rw [hk'] at hk
  cases hk
  exact ⟨hop, htag⟩

theorem picked_map_tag (p : Op ι χ κ M δ → Bool) (t : ι) : (N.picked p t (N.prog t).length).map (tag T Rs mem) =
      ((tagged T Rs 0 mem t).filter fun y => p y.1.op).map (·.2) := by
  rw [picked, map_map, ← h.length_tagged]
  refine range_filter_map _ fun i y hy => ⟨?_, tag_eq hy⟩
  rw [h.op_eq hy]
  rfl

def wiring : N.Wiring where
  sender := T.src
  receiver := T.dst
  sender_eq x c read hop := by
    obtain ⟨A, R, B, k, e, -, g, -, hk, -, ho, -⟩ := h.locate (lt_length_of_op hop)
    rw [hop] at ho
    exact g.sender x.1 e (mem_of_getElem? hk) c read (Option.some.inj ho).symm
  receiver_eq x c fits store finish hop := by
    obtain ⟨A, R, B, k, e, -, g, -, hk, -, ho, -⟩ := h.locate (lt_length_of_op hop)
    rw [hop] at ho
    exact g.receiver x.1 e (mem_of_getElem? hk) c fits store finish (Option.some.inj ho).symm

theorem paired (c : χ) : (h.wiring.sends c).map (tag T Rs mem) = (h.wiring.recvs c).map (tag T Rs mem) := by
  unfold Wiring.sends Wiring.recvs
  rw [h.picked_map_tag, h.picked_map_tag]
  exact tagged_paired h.good 0 mem c

theorem fits {o : Op ι χ κ M δ} (hop : N.op x = some o) : o.Fits (tag T Rs mem x).2 := by
  obtain ⟨A, R, B, k, e, -, g, -, hk, -, ho, htag, -⟩ := h.locate (lt_length_of_op hop)
  rw [hop] at ho
  rw [htag, Option.some.inj ho]
  exact g.fits_msg (mem_of_getElem? hk) _

theorem applyAll_roundOrder (hRs : Rs = A ++ R :: B) (r : ρ) :
    applyAll (fun x => N.effect (tag T Rs mem x).2 x .done) (roundOrder T A R r) (execAll T A mem r) =
      R.exec T (execAll T A mem) r := by
  refine applyAll_of_map_eq (roundOrder_map fun t k e he => ?_) _
  obtain ⟨hop, htag⟩ := h.at_place hRs he
  rw [effect_of_op hop, htag]

theorem applyAll_orderFrom {C : List (Round ι χ κ M δ)} (hRs : Rs = A ++ (B ++ C)) (r : ρ) :
    applyAll (fun x => N.effect (tag T Rs mem x).2 x .done) (orderFrom T A B r) (execAll T A mem r) =
      execAll T (A ++ B) mem r := by
  induction B generalizing A with
  | nil => rw [append_nil]; rfl
  | cons R B ih =>
    have hexec : R.exec T (execAll T A mem) = execAll T (A ++ [R]) mem := by
      rw [execAll_append]
      rfl
    rw [orderFrom, applyAll_append, h.applyAll_roundOrder hRs, hexec,
      ih (A := A ++ [R]) (by rw [hRs, append_assoc]; rfl), append_assoc]
    rfl

theorem indep_roundOrder (hRs : Rs = A ++ R :: B) (r : ρ) : (roundOrder T A R r).Pairwise N.Indep := by
  have hops : (roundOrder T A R r).map N.op = ((T.team r).flatMap R).map fun e => some e.op :=
    roundOrder_map fun t k e he => (h.at_place hRs he).1
  have hpair : (((T.team r).flatMap R).map fun e => some e.op).Pairwise
      fun a b => ∀ o o', a = some o → b = some o' → o.Indep o' := by
    refine pairwise_map.mpr (((h.good R (by rw [hRs]; simp)).indep r).imp fun {e e'} hi o o' ho ho' => ?_)
    rw [← Option.some.inj ho, ← Option.some.inj ho']
    exact hi
  rw [← hops] at hpair
  exact (pairwise_map.mp hpair).imp fun {x y} hxy => hxy

theorem reads (hop : N.op x = some (.send c read)) {l l' : List (ι × Nat)}
    (hl : orderFrom T [] Rs (N.rank x.1) = l ++ x :: l') :
    read (applyAll (fun y => N.effect (tag T Rs mem y).2 y .done) l (mem (N.rank x.1))) = (tag T Rs mem x).2 := by
  obtain ⟨A, R, B, k, e, hRs, g, hx, hk, -, ho, htag, -⟩ := h.locate (lt_length_of_op hop)
  have hkl : k < (R x.1).length := lt_of_get hk
  rw [hop] at ho
  have ho : e.op = .send c read := (Option.some.inj ho).symm
  have hteam : x.1 ∈ T.team (N.rank x.1) := by
    rw [h.rank]
    exact g.team x.1 (ne_nil_of_length_pos (Nat.zero_lt_of_lt hkl))
  obtain ⟨l₁, l₂, hsplit⟩ := append_of_mem (mem_roundOrder.mpr ⟨hteam, k, hkl, hx⟩)
  -- the earlier rounds, then what stands before the send in its own round
  have hfront : l = orderFrom T [] A (N.rank x.1) ++ l₁ := by
    have hnodup := orderFrom_nodup (T := T) [] Rs (N.rank x.1)
    have hl₂ : orderFrom T [] Rs (N.rank x.1) = (orderFrom T [] A (N.rank x.1) ++ l₁) ++
        x :: (l₂ ++ orderFrom T (A ++ [R]) B (N.rank x.1)) := by
      rw [hRs, orderFrom_append, nil_append, orderFrom, hsplit]
      simp only [append_assoc, cons_append]
    rw [hl] at hl₂ hnodup
    obtain ⟨-, hxl', hdis⟩ := nodup_append.mp hnodup
    exact ((append_cons_inj_of_notMem (fun hm => hdis x hm x mem_cons_self rfl)
      (nodup_cons.mp hxl').1).mp hl₂).1
  have hrun := h.applyAll_orderFrom (A := []) (B := A) (C := R :: B) hRs (N.rank x.1)
  rw [nil_append, show execAll T [] mem (N.rank x.1) = mem (N.rank x.1) from rfl] at hrun
  rw [hfront, applyAll_append, hrun, htag, ho]
  show _ = R.out T (execAll T A mem) c
  have hsrc : x.1 = T.src c := g.sender x.1 e (mem_of_getElem? hk) c read ho
  rw [g.out_eq (hsrc ▸ mem_of_getElem? hk) ho, ← hsrc, h.rank]
  -- these are independent of the send
  refine read_applyAll (fun y hy m => ?_) _
  have hind := h.indep_roundOrder hRs (N.rank x.1)
  rw [hsplit] at hind
  have hi := (pairwise_append.mp hind).2.2 y hy x mem_cons_self
  cases hy' : N.op y with
  | none => rw [effect, hy']; rfl
  | some o =>
    rw [effect_of_op hy']
    exact (hi o _ hy' hop).symm.blind_effect (h.fits hy') _ m

theorem apart_orderFrom (hRs : Rs = A ++ B) (r : ρ) :
    (orderFrom T A B r).Pairwise fun x y => N.Dep x y ∨ N.Indep x y ∨ N.ReadFirst mem x y := by
  induction B generalizing A with
  | nil => exact List.Pairwise.nil
  | cons R B ih =>
    refine pairwise_append.mpr ⟨(h.indep_roundOrder hRs r).imp fun hi => .inr (.inl hi),
      ih (A := A ++ [R]) (by rw [hRs, append_assoc]; rfl), fun x hx y hy => ?_⟩
    obtain ⟨C, R', D, rfl, hy'⟩ := mem_orderFrom.mp hy
    obtain ⟨hxt, k, hk, hxk⟩ := mem_roundOrder.mp hx
    obtain ⟨hyt, k', hk', hyk⟩ := mem_roundOrder.mp hy'
    have hRs' : Rs = (A ++ [R] ++ C) ++ R' :: D := by
      rw [hRs]
      simp only [append_assoc, cons_append, nil_append]
    have hx1 : x.2 < (N.prog x.1).length := h.lt_length hRs hk hxk
    have hy1 : y.2 < (N.prog y.1).length := h.lt_length hRs' hk' hyk
    refine h.apart x y hx1 hy1 ?_ ?_
    · rw [h.rank, h.rank, T.rank_eq r _ hxt, T.rank_eq r _ hyt]
    · rw [hxk, hyk]
      conv_lhs => rw [hRs]
      conv_rhs => rw [hRs']
      rw [roundOf_eq A R _ hk, roundOf_eq _ R' D hk', length_append, length_append, length_singleton]
      omega

/-- The plan: every rank's entries round by round, every message what its round says. -/
def plan : N.Plan mem where
  toWiring := h.wiring
  msg x := (tag T Rs mem x).2
  order r := orderFrom T [] Rs r
  mem_order r x := by
    rw [mem_orderFrom]
    constructor
    · rintro ⟨C, R, D, rfl, hx⟩
      obtain ⟨ht, k, hk, hxk⟩ := mem_roundOrder.mp hx
      exact ⟨by rw [h.rank, T.rank_eq r _ ht], h.lt_length rfl hk hxk⟩
    · rintro ⟨rfl, hx⟩
      obtain ⟨A, R, B, k, e, hRs, g, hxk, hk, -⟩ := h.locate hx
      have hkl : k < (R x.1).length := lt_of_get hk
      refine ⟨A, R, B, hRs, mem_roundOrder.mpr ⟨?_, k, hkl, hxk⟩⟩
      rw [h.rank]
      exact g.team x.1 (ne_nil_of_length_pos (Nat.zero_lt_of_lt hkl))
  nodup r := orderFrom_nodup [] Rs r
  fits x o hop := h.fits hop
  paired c := by
    have := congrArg (map Prod.snd) (h.paired c)
    rwa [map_map, map_map] at this
  apart r := h.apart_orderFrom (A := []) rfl r
  reads x c read hop l l' hl := h.reads hop hl

theorem result_eq (r : ρ) : h.plan.result r = execAll T Rs mem r :=
  h.applyAll_orderFrom (A := []) (B := Rs) (C := []) (append_nil Rs).symm r

theorem levels : N.Levels h.plan.toWiring fun x => roundOf Rs x.1 x.2 where
  ready := ready_of_rounds h.prog h.good
  matched c := by
    have hlvl : ∀ p u, ((N.picked p u (N.prog u).length).map (tag T Rs mem)).map Prod.fst =
        (N.picked p u (N.prog u).length).map fun x => roundOf Rs x.1 x.2 := by
      intro p u
      rw [map_map]
      refine map_congr_left fun x hx => ?_
      obtain ⟨h1, h2, -⟩ := mem_picked.mp hx
      exact h.tag_fst (h1 ▸ h2)
    calc (h.wiring.sends c).map (fun x => roundOf Rs x.1 x.2)
        = ((h.wiring.sends c).map (tag T Rs mem)).map Prod.fst := (hlvl _ _).symm
      _ = ((h.wiring.recvs c).map (tag T Rs mem)).map Prod.fst := by rw [h.paired c]
      _ = (h.wiring.recvs c).map (fun x => roundOf Rs x.1 x.2) := hlvl _ _
  sync_above x k hop i hi hna := by
    obtain ⟨A, R, B, j, e, hRs, g, hx, hk, -, ho, -, hround⟩ := h.locate (lt_length_of_op hop)
    obtain ⟨Ai, Ri, Bi, ki, ei, hRsi, -, hxi, hki, -, -, -, hroundi⟩ :=
      h.locate (x := (x.1, i)) (hi.trans (lt_length_of_op hop))
    rw [hop] at ho
    have hone := g.alone x.1 e (mem_of_getElem? hk) k (Option.some.inj ho).symm
    have hjl : j < (R x.1).length := lt_of_get hk
    show roundOf Rs x.1 i < _
    rw [show roundOf Rs x.1 i = _ from hroundi, hround]
    rcases round_mono (hRsi.symm.trans hRs) hxi hx hjl hi.le with hlt | ⟨rfl, rfl⟩
    · exact hlt
    · -- the meeting is the first of its round
      rw [hone, length_singleton] at hjl
      simp only at hxi
      omega
  sync_level x y k hx hy := h.meet x y k hx hy
  sub_above p t hop j hj := h.sub_above p t hop j hj
  sub_ready p t hop y ht hy := h.sub_ready p t hop y ht hy
  sub_deep := h.sub_deep

/-- **A program in rounds computes its rounds**: every run completes, in the memories of `execAll`. -/
theorem completes : N.Completes mem fun s => ∀ r, s.mem r = execAll T Rs mem r :=
  (h.plan.completes h.levels).imp fun _ hs r => (hs r).trans (h.result_eq r)

end Net.InRounds

end

end Async
