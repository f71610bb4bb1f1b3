import Mathlib.Data.Nat.Pairing
import OneCcl.Sched.Rounds

/-!
# Several schedules of a rank

A collective may be built as several schedules that a rank runs beside each other: the partial schedules of the
parallelizer, which meet at sync entries, and schedules that another schedule starts and waits for. `schedsNet` is a
communicator whose ranks have built schedules `0 … m-1` each, every schedule with its own tag.

Such a program is read as a list of rounds as well. A round belongs to one of the schedules (`column`), is a meeting of
the schedules of a rank (`sync`), or starts other schedules (`subs`). Schedules that run beside each other stand in the
list one behind the other. `completes_of_tasks` is the bridge.
-/

namespace OneCcl

open Async List

variable {α : Type}
variable (op : α → α → α) {e : SchedEntry} {P : TaskRound} {m c n k i : Nat} {b : Bool} {A B : List TaskRound}
  {x : (Nat × Nat) × Nat}

/-- A sync object is shared by the schedules of one rank. -/
def EntryKind.onRank (r : Nat) : EntryKind → EntryKind
  | .sync k => .sync (Nat.pair r k)
  | e => e

@[simp] theorem EntryKind.onRank_writes (r : Nat) (e : EntryKind) : (e.onRank r).writes = e.writes := by
  cases e <;> rfl

@[simp] theorem EntryKind.onRank_reads (r : Nat) (e : EntryKind) : (e.onRank r).reads = e.reads := by
  cases e <;> rfl

@[simp] theorem EntryKind.onRank_isLocal (r : Nat) (e : EntryKind) : (e.onRank r).isLocal = e.isLocal := by
  cases e <;> rfl

/-- An entry of one of a rank's schedules as an entry of the net. -/
def SchedEntry.toTask (op : α → α → α) (r tag : Nat) (e : SchedEntry) :
    Async.Entry (Nat × Nat) Chan Nat (Mem α) (List α) :=
  ⟨(e.kind.onRank r).toOp op r tag (Prod.mk r), e.barrier⟩

theorem EntryKind.Apart.toTask {e' : SchedEntry} (h : e.kind.Apart e'.kind) (op : α → α → α) (r tag tag' : Nat) :
    (e.toTask op r tag).op.Indep (e'.toTask op r tag').op := by
  refine EntryKind.Apart.indep ⟨?_, ?_⟩ op r tag r tag' (Prod.mk r)
  · simpa using h.left
  · simpa using h.right

theorem ClosedEntries.toTask {l : List SchedEntry} (h : ClosedEntries l) (op : α → α → α) (r tag : Nat) :
    Closed (l.map (·.toTask op r tag)) := by
  refine h.closed_map (fun e => ?_) fun _ => rfl
  exact (EntryKind.isAct_toOp op r tag _ _).trans (EntryKind.onRank_isLocal r e.kind)

/-- The ranks `0 … n-1` of a communicator, each with the schedules `0 … m-1` it built. -/
def schedsNet (op : α → α → α) (n m : Nat) (tag : Nat → Nat) (eager : Nat × Nat → Nat → Bool)
    (sched : Nat → Nat → Sched) : Net (Nat × Nat) Nat Chan Nat (Mem α) (List α) where
  tasks := (range n).flatMap fun r => (range m).map (Prod.mk r)
  prog t := if t.1 < n ∧ t.2 < m then (sched t.1 t.2).entries.map (·.toTask op t.1 (tag t.2)) else []
  quiet t ht := by
    refine if_neg fun h => ht ?_
    exact mem_flatMap.mpr ⟨t.1, mem_range.mpr h.1, mem_map.mpr ⟨t.2, mem_range.mpr h.2, rfl⟩⟩
  rank := Prod.fst
  credits _ := maxFlowCredits
  eager := eager

/-! ## The rounds of several schedules -/

/-- A round of the schedules of all ranks. -/
inductive TaskRound where
  /-- A round of schedule `c` of every rank. -/
  | column (c : Nat) (R : SchedRound)
  /-- A meeting of the schedules below `cols`, at the ranks that have a sync object for it. -/
  | sync (cols : Nat) (obj : Nat → Option Nat)
  /-- Entries of schedule `c` that stand for other schedules. -/
  | subs (c : Nat) (R : SchedRound)

namespace TaskRound

def entries : TaskRound → Nat → Nat → List SchedEntry
  | .column c R, r, c' => if c' = c then R r else []
  | .sync cols obj, r, c' => if c' < cols then (obj r).toList.map fun k => ⟨.sync k, true⟩ else []
  | .subs c R, r, c' => if c' = c then R r else []

def exec (op : α → α → α) : TaskRound → (Nat → Mem α) → Nat → Mem α
  | .column _ R, σ => R.exec op σ
  | _, σ => σ

/-- A round of a net with `n` ranks and `m` schedules each. -/
def IsGood (n m : Nat) : TaskRound → Prop
  | .column c R => c < m ∧ R.IsRoomy n
  | .sync cols obj => cols ≤ m ∧ ∀ r, n ≤ r → obj r = none
  | .subs c R => c < m ∧ (∀ r, n ≤ r → R r = []) ∧ ∀ r, (∀ e ∈ R r, ∃ i, e.kind = .subsched i) ∧
      (∀ e ∈ (R r).dropLast, e.barrier = false) ∧ (R r).length ≤ maxFlowCredits

variable {r c' cols : Nat} {R : SchedRound} {obj : Nat → Option Nat}

theorem mem_column : e ∈ (column c R).entries r c' ↔ c' = c ∧ e ∈ R r := mem_ite_nil_right

theorem mem_subs : e ∈ (subs c R).entries r c' ↔ c' = c ∧ e ∈ R r := mem_ite_nil_right

theorem mem_sync : e ∈ (sync cols obj).entries r c ↔ c < cols ∧ ∃ k, obj r = some k ∧ ⟨.sync k, true⟩ = e := by
  simp [entries]

def toRound (op : α → α → α) (tag : Nat → Nat) (P : TaskRound) : Round (Nat × Nat) Chan Nat (Mem α) (List α) :=
  fun t => (P.entries t.1 t.2).map (·.toTask op t.1 (tag t.2))

end TaskRound

theorem length_flatMap_toRound (tag : Nat → Nat) (A : List TaskRound) (t : Nat × Nat) :
    ((A.map (·.toRound op tag)).flatMap (· t)).length = (A.flatMap (·.entries t.1 t.2)).length := by
  rw [flatMap_map, length_flatMap, length_flatMap]
  exact congrArg sum (map_congr_left fun P _ => length_map _)

def execTasks (op : α → α → α) : List TaskRound → (Nat → Mem α) → Nat → Mem α
  | [], σ => σ
  | P :: Ps, σ => execTasks op Ps (P.exec op σ)

theorem execTasks_append (A B : List TaskRound) (σ : Nat → Mem α) :
    execTasks op (A ++ B) σ = execTasks op B (execTasks op A σ) := by
  induction A generalizing σ with
  | nil => rfl
  | cons P A ih => exact ih _

theorem execTasks_column (c : Nat) (Rs : List SchedRound) (σ : Nat → Mem α) :
    execTasks op (Rs.map (.column c)) σ = execRounds op Rs σ := by
  induction Rs generalizing σ with
  | nil => rfl
  | cons R Rs ih => exact ih _

/-- Schedules with rounds of their own, one behind the other. -/
def columns (p : Nat) (Rs : Nat → List SchedRound) : List TaskRound :=
  (range p).flatMap fun c => (Rs c).map (.column c)

theorem columns_succ (p : Nat) (Rs : Nat → List SchedRound) :
    columns (p + 1) Rs = columns p Rs ++ (Rs p).map (.column p) := by
  rw [columns, range_succ, flatMap_append, flatMap_singleton]
  rfl

theorem mem_columns {p : Nat} {Rs : Nat → List SchedRound} : P ∈ columns p Rs ↔ ∃ c < p, ∃ R ∈ Rs c, P = .column c R := by
  simp only [columns, mem_flatMap, mem_range, mem_map, eq_comm]

theorem columns_entries (p : Nat) (Rs : Nat → List SchedRound) (r c : Nat) :
    (columns p Rs).flatMap (·.entries r c) = if c < p then (Rs c).flatMap (· r) else [] := by
  have hmap : ∀ c', ((Rs c').map (.column c')).flatMap (fun P : TaskRound => P.entries r c) =
      if c = c' then (Rs c').flatMap (· r) else [] := by
    intro c'
    rw [flatMap_map]
    show (Rs c').flatMap (fun R => if c = c' then R r else []) = _
    split
    · rfl
    · exact flatMap_eq_nil_iff.mpr fun _ _ => rfl
  induction p with
  | zero => rfl
  | succ p ih =>
    rw [columns_succ, flatMap_append, ih, hmap]
    rcases lt_trichotomy c p with h | rfl | h
    · rw [if_pos h, if_neg (by omega), if_pos (by omega), append_nil]
    · rw [if_neg (by omega), if_pos rfl, if_pos (by omega), nil_append]
    · rw [if_neg (by omega), if_neg (by omega), if_neg (by omega), append_nil]

/-! ## The layout of the net -/

/-- The schedules of a rank have tags of their own. -/
abbrev TagsDiffer (m : Nat) (tag : Nat → Nat) : Prop := ∀ c < m, ∀ c' < m, tag c = tag c' → c = c'

def schedOf (m : Nat) (tag : Nat → Nat) (g : Nat) : Nat := ((range m).find? (tag · = g)).getD 0

theorem schedOf_tag {tag : Nat → Nat} (htag : TagsDiffer m tag) (hc : c < m) :
    schedOf m tag (tag c) = c := by
  unfold schedOf
  cases h : (range m).find? (tag · = tag c) with
  | none => exact absurd (decide_eq_true rfl) (find?_eq_none.mp h c (mem_range.mpr hc))
  | some c' =>
    have hc' := mem_range.mp (mem_of_find?_eq_some h)
    have heq := find?_some h
    exact htag c' hc' c hc (of_decide_eq_true heq)

/-- The schedules of each rank, in the order of their numbers. -/
def schedsLayout (m : Nat) (tag : Nat → Nat) : Layout (Nat × Nat) Nat Chan where
  rank := Prod.fst
  team r := (range m).map (Prod.mk r)
  src c := (c.src, schedOf m tag c.tag)
  dst c := (c.dst, schedOf m tag c.tag)
  nodup _ := nodup_range.map fun _ _ h => (Prod.mk.inj h).2
  rank_eq r t ht := by
    obtain ⟨c, -, rfl⟩ := mem_map.mp ht
    rfl

section

variable {n m : Nat} {tag : Nat → Nat}

variable {r : Nat}

theorem mem_team (hc : c < m) : (r, c) ∈ (schedsLayout m tag).team r :=
  mem_map.mpr ⟨c, mem_range.mpr hc, rfl⟩

theorem scheds_column (n : Nat) (htag : TagsDiffer m tag) (hc : c < m) :
    SchedRound.Column (schedsLayout m tag) n (fun r => (r, c)) (tag c) where
  rank _ := rfl
  src s d := by
    show (s, schedOf m tag (tag c)) = (s, c)
    rw [schedOf_tag htag hc]
  dst s d := by
    show (d, schedOf m tag (tag c)) = (d, c)
    rw [schedOf_tag htag hc]
  team r _ := mem_team hc

/-- Only meetings and child schedules: an entry without messages that leaves the memory alone. -/
def SchedEntry.IsSilent (e : SchedEntry) : Prop := (∃ k, e.kind = .sync k) ∨ ∃ i, e.kind = .subsched i

theorem SchedEntry.IsSilent.op_eq (h : e.IsSilent) (op : α → α → α) (r tag : Nat) :
    (∃ k, (e.toTask op r tag).op = .sync k) ∨ ∃ t, (e.toTask op r tag).op = .sub t := by
  obtain ⟨kind, b⟩ := e
  rcases h with ⟨k, rfl⟩ | ⟨i, rfl⟩
  · exact .inl ⟨_, rfl⟩
  · exact .inr ⟨_, rfl⟩

/-- What a task may have in a round without messages: meetings and child schedules, a meeting alone. -/
structure SilentEntries (l : List SchedEntry) : Prop where
  silent : ∀ e ∈ l, e.IsSilent
  wait : ∀ e ∈ l.dropLast, e.barrier = false
  alone : ∀ e ∈ l, (∃ k, e.kind = .sync k) → l = [e]
  small : l.length ≤ maxFlowCredits

theorem silentEntries_nil : SilentEntries [] :=
  ⟨forall_mem_nil _, forall_mem_nil _, forall_mem_nil _,
    Nat.zero_le _⟩

theorem silentEntries_sync (k : Nat) : SilentEntries [⟨.sync k, true⟩] where
  silent e he := by
    rw [mem_singleton.mp he]
    exact .inl ⟨k, rfl⟩
  wait e he := absurd he not_mem_nil
  alone e he _ := by rw [mem_singleton.mp he]
  small := show 1 ≤ maxFlowCredits by decide

namespace TaskRound

theorem IsGood.entries_eq_nil (h : P.IsGood n m) (hrc : ¬ (r < n ∧ c < m)) : P.entries r c = [] := by
  have hcases : n ≤ r ∨ m ≤ c := by omega
  cases P with
  | column c' R =>
    obtain ⟨hc', dest, orig, g⟩ := h
    show (if c = c' then R r else []) = []
    split
    · exact g.idle r (hcases.resolve_right (by omega))
    · rfl
  | sync cols obj =>
    show (if c < cols then _ else []) = []
    split
    next hc => rw [h.2 r (hcases.resolve_right (by have := h.1; omega))]; rfl
    next => rfl
  | subs c' R =>
    show (if c = c' then R r else []) = []
    split
    next hc => exact h.2.1 r (hcases.resolve_right (by have := h.1; omega))
    next => rfl

theorem toRound_column {R : SchedRound} (hR : R.IsRoomy n) (c : Nat) : (TaskRound.column c R).toRound op tag =
      R.toRoundAt (schedsLayout m tag).rank (fun r => (r, c)) op (tag c) Prod.mk := by
  obtain ⟨dest, orig, g⟩ := hR
  funext t
  obtain ⟨r, c'⟩ := t
  show (if c' = c then R r else []).map _ = if (r, c') = (r, c) then _ else _
  by_cases hc : c' = c
  · subst hc
    rw [if_pos rfl, if_pos rfl]
    refine map_congr_left fun e he => ?_
    obtain ⟨kind, b⟩ := e
    have hplain := g.plain r _ he
    cases kind with
    | sync k => exact absurd rfl (hplain.1 k)
    | _ => rfl
  · rw [if_neg hc, if_neg fun h => hc (Prod.mk.inj h).2, map_nil]

theorem toRound_good_of_silent (h : P.IsGood n m) (hs : ∀ r c, SilentEntries (P.entries r c)) :
    (P.toRound op tag).Good (schedsLayout m tag) fun _ => maxFlowCredits := by
  have hop : ∀ {t e}, e ∈ P.toRound op tag t → (∃ k, e.op = .sync k) ∨ ∃ t', e.op = .sub t' := by
    intro t e he
    obtain ⟨e', he', rfl⟩ := mem_map.mp he
    exact ((hs _ _).silent e' he').op_eq op _ _
  have hsend : ∀ {t e}, e ∈ P.toRound op tag t → ∀ c read, e.op ≠ .send c read := by
    intro t e he c read hc
    rcases hop he with ⟨k, hk⟩ | ⟨t', hk⟩ <;> rw [hk] at hc <;> cases hc
  have hrecv : ∀ {t e}, e ∈ P.toRound op tag t → ∀ c fits store finish, e.op ≠ .recv c fits store finish := by
    intro t e he c fits store finish hc
    rcases hop he with ⟨k, hk⟩ | ⟨t', hk⟩ <;> rw [hk] at hc <;> cases hc
  have hsends : ∀ t c, (P.toRound op tag t).filter (fun e => e.op.sendsOn c) = [] := by
    intro t c
    refine filter_eq_nil_iff.mpr fun e he hs => ?_
    rcases hop he with ⟨k, hk⟩ | ⟨t', hk⟩ <;> rw [hk] at hs <;> cases hs
  have hrecvs : ∀ t c, (P.toRound op tag t).filter (fun e => e.op.recvsOn c) = [] := by
    intro t c
    refine filter_eq_nil_iff.mpr fun e he hs => ?_
    rcases hop he with ⟨k, hk⟩ | ⟨t', hk⟩ <;> rw [hk] at hs <;> cases hs
  have hindep : ∀ (o o' : Op (Nat × Nat) Chan Nat (Mem α) (List α)), o.atoms = ∅ → o'.atoms = ∅ → o.Indep o' := by
    intro o o' ho ho'
    refine ⟨fun f hf => ?_, fun g hg => ?_, fun f hf => ?_⟩
    · rw [ho] at hf
      exact False.elim hf
    · rw [ho'] at hg
      exact False.elim hg
    · rw [ho] at hf
      exact False.elim hf
  have hatoms : ∀ {t e}, e ∈ P.toRound op tag t → e.op.atoms = ∅ := by
    intro t e he
    rcases hop he with ⟨k, hk⟩ | ⟨t', hk⟩ <;> rw [hk] <;> rfl
  refine ⟨fun t ht => ?_, fun t e he c read hc => absurd hc (hsend he c read),
    fun t e he c fits store finish hc => absurd hc (hrecv he c fits store finish), fun c => ?_, fun c => ?_,
    fun c e he e' he' read fits store finish hc => absurd hc (hsend he c read), fun r => ?_,
    fun t l e l' hl hbar => .inl ?_, fun t e he k hk => ?_, fun t => ?_⟩
  · obtain ⟨r, c⟩ := t
    refine mem_team ?_
    by_contra hc
    exact ht (by rw [toRound, h.entries_eq_nil fun hrc => hc hrc.2, map_nil])
  · rw [hsends]
    exact Nat.zero_le _
  · rw [hsends, hrecvs]
  · refine pairwise_of_forall_mem_list fun e he e' he' => ?_
    obtain ⟨t, -, he⟩ := mem_flatMap.mp he
    obtain ⟨t', -, he'⟩ := mem_flatMap.mp he'
    exact hindep _ _ (hatoms he) (hatoms he')
  · obtain ⟨A, B, hAB, rfl, hB⟩ := map_eq_append_iff.mp hl
    obtain ⟨e₀, B, rfl, rfl, rfl⟩ := map_eq_cons_iff.mp hB
    cases B with
    | nil => rfl
    | cons e₁ B =>
      have hmem : e₀ ∈ (P.entries t.1 t.2).dropLast := by
        rw [hAB, dropLast_append_of_ne_nil (by simp), dropLast_cons_of_ne_nil (by simp)]
        exact mem_append_right _ mem_cons_self
      exact absurd (show e₀.barrier = true from hbar) (by rw [(hs _ _).wait e₀ hmem]; exact Bool.noConfusion)
  · obtain ⟨e', he', rfl⟩ := mem_map.mp he
    have hsync : ∃ k, e'.kind = .sync k := by
      rcases (hs _ _).silent e' he' with hs | ⟨i, hi⟩
      · exact hs
      · obtain ⟨kind, b⟩ := e'
        obtain rfl : kind = .subsched i := hi
        cases hk
    rw [toRound, (hs _ _).alone e' he' hsync, map_singleton]
  · rw [toRound, length_map]
    exact (hs _ _).small

theorem IsGood.toRound_good (htag : TagsDiffer m tag) (h : P.IsGood n m) :
    (P.toRound op tag).Good (schedsLayout m tag) fun _ => maxFlowCredits := by
  cases P with
  | column c R =>
    obtain ⟨dest, orig, g⟩ := h.2
    rw [toRound_column (m := m) op h.2]
    exact g.toRoundAt_good (scheds_column n htag h.1) Prod.mk op
  | sync cols obj =>
    refine toRound_good_of_silent op h fun r c => ?_
    show SilentEntries (if c < cols then (obj r).toList.map _ else [])
    split
    · cases obj r with
      | none => exact silentEntries_nil
      | some k => exact silentEntries_sync k
    · exact silentEntries_nil
  | subs c R =>
    refine toRound_good_of_silent op h fun r c' => ?_
    show SilentEntries (if c' = c then R r else [])
    split
    · obtain ⟨hsub, hwait, hsmall⟩ := h.2.2 r
      refine ⟨fun e he => .inr (hsub e he), hwait, fun e he hk => ?_, hsmall⟩
      obtain ⟨i, hi⟩ := hsub e he
      obtain ⟨k, hk⟩ := hk
      rw [hi] at hk
      cases hk
    · exact silentEntries_nil

theorem exec_of_silent (hs : ∀ r c, ∀ e ∈ P.entries r c, e.IsSilent) (σ : Nat → Mem α) (r : Nat) :
    (P.toRound op tag).exec (schedsLayout m tag) σ r = σ r := by
  have hid : ∀ l : List (Async.Entry (Nat × Nat) Chan Nat (Mem α) (List α)), (∀ e ∈ l, (∃ k, e.op = .sync k) ∨
      ∃ t, e.op = .sub t) → ∀ μ, applyAll (fun e => e.op.effect ((P.toRound op tag).msg (schedsLayout m tag) σ e.op)
        .done) l μ = μ := by
    intro l hl μ
    induction l with
    | nil => rfl
    | cons e l ih =>
      have he : e.op.effect ((P.toRound op tag).msg (schedsLayout m tag) σ e.op) .done = id := by
        rcases hl e mem_cons_self with ⟨k, hk⟩ | ⟨t, hk⟩ <;> rw [hk] <;> rfl
      rw [applyAll_cons, he]
      exact ih fun e' he' => hl e' (mem_cons_of_mem _ he')
  refine hid _ (fun e he => ?_) _
  obtain ⟨t, -, he⟩ := mem_flatMap.mp he
  obtain ⟨e', he', rfl⟩ := mem_map.mp he
  exact (hs _ _ e' he').op_eq op _ _

theorem IsGood.exec_toRound (htag : TagsDiffer m tag) (h : P.IsGood n m) (σ : Nat → Mem α) :
    (P.toRound op tag).exec (schedsLayout m tag) σ = P.exec op σ := by
  funext r
  cases P with
  | column c R =>
    obtain ⟨dest, orig, g⟩ := h.2
    rw [toRound_column (m := m) op h.2, (scheds_column n htag h.1).exec_toRoundAt Prod.mk op g.idle]
    rfl
  | sync cols obj =>
    refine exec_of_silent op (fun r c e he => ?_) σ r
    obtain ⟨-, k, -, rfl⟩ := mem_sync.mp he
    exact .inl ⟨k, rfl⟩
  | subs c R =>
    refine exec_of_silent op (fun r c' e he => ?_) σ r
    exact .inr ((h.2.2 r).1 e (mem_subs.mp he).2)

end TaskRound

theorem execAll_toTasks (htag : TagsDiffer m tag) {Ps : List TaskRound}
    (hgood : ∀ P ∈ Ps, P.IsGood n m) (σ : Nat → Mem α) :
    execAll (schedsLayout m tag) (Ps.map (·.toRound op tag)) σ = execTasks op Ps σ := by
  induction Ps generalizing σ with
  | nil => rfl
  | cons P Ps ih =>
    rw [map_cons, execAll, execTasks, (hgood P mem_cons_self).exec_toRound op htag,
      ih fun P' h => hgood P' (mem_cons_of_mem _ h)]

end

/-! ## Rounds that leave nothing open -/

theorem TaskRound.closed_column {R : SchedRound} (h : R.Closed) (c r c' : Nat) :
    ClosedEntries ((TaskRound.column c R).entries r c') := by
  show ClosedEntries (if c' = c then R r else [])
  split
  · exact h r
  · exact .inr fun e he => absurd he not_mem_nil

theorem TaskRound.closed_sync (cols : Nat) (obj : Nat → Option Nat) (r c : Nat) :
    ClosedEntries ((TaskRound.sync cols obj).entries r c) := by
  show ClosedEntries (if c < cols then (obj r).toList.map _ else [])
  split
  · cases obj r with
    | none => exact .inr fun e he => absurd he not_mem_nil
    | some k => exact .inl ⟨_, rfl, rfl⟩
  · exact .inr fun e he => absurd he not_mem_nil

/-! ## Programs of several schedules -/

/-- The round is a meeting of a rank's schedules at a sync object. -/
def TaskRound.Meets (P : TaskRound) (r k : Nat) : Prop := ∃ cols obj, P = .sync cols obj ∧ obj r = some k

variable {r : Nat}

theorem TaskRound.IsGood.meets (h : P.IsGood n m) (he : ⟨.sync k, b⟩ ∈ P.entries r c) : P.Meets r k := by
  cases P with
  | column c' R =>
    obtain ⟨-, dest, orig, g⟩ := h
    exact absurd rfl ((g.plain _ _ (mem_column.mp he).2).1 k)
  | sync cols obj =>
    obtain ⟨-, k', hk', heq⟩ := mem_sync.mp he
    cases heq
    exact ⟨cols, obj, rfl, hk'⟩
  | subs c' R =>
    obtain ⟨i, hi⟩ := (h.2.2 r).1 _ (mem_subs.mp he).2
    cases hi

theorem TaskRound.IsGood.not_subsched (h : P.IsGood n m) (hP : ∀ c R, P ≠ .subs c R) : ⟨.subsched i, b⟩ ∉ P.entries r c := by
  intro he
  cases P with
  | column c' R =>
    obtain ⟨-, dest, orig, g⟩ := h
    exact absurd rfl ((g.plain _ _ (mem_column.mp he).2).2 i)
  | sync cols obj =>
    obtain ⟨-, k, -, heq⟩ := mem_sync.mp he
    cases heq
  | subs c' R => exact hP c' R rfl

/-- Where the `i`-th entry of the next round stands in a schedule, behind the given rounds. -/
def place (A : List TaskRound) (r c i : Nat) : (Nat × Nat) × Nat :=
  ((r, c), (A.flatMap (·.entries r c)).length + i)

section

variable {n m : Nat} {tag : Nat → Nat} {sched : Nat → Nat → Sched} {Ps : List TaskRound}
  (hgood : ∀ P ∈ Ps, P.IsGood n m)
  (hsched : ∀ r < n, ∀ c < m, (sched r c).entries = Ps.flatMap (·.entries r c))
  (op : α → α → α) (eager : Nat × Nat → Nat → Bool)

include hgood hsched

theorem schedsNet_prog (t : Nat × Nat) : (schedsNet op n m tag eager sched).prog t =
      (Ps.flatMap (·.entries t.1 t.2)).map (·.toTask op t.1 (tag t.2)) := by
  show (if t.1 < n ∧ t.2 < m then _ else _) = _
  split
  next h => rw [hsched _ h.1 _ h.2]
  next h =>
    have hnil : Ps.flatMap (·.entries t.1 t.2) = [] :=
      flatMap_eq_nil_iff.mpr fun P hP => (hgood P hP).entries_eq_nil h
    rw [hnil, map_nil]

theorem schedsNet_prog_rounds (t : Nat × Nat) :
    (schedsNet op n m tag eager sched).prog t = (Ps.map (·.toRound op tag)).flatMap (· t) := by
  rw [schedsNet_prog hgood hsched, map_flatMap, flatMap_map]
  rfl

variable (tag) in
theorem get_place (hPs : Ps = A ++ P :: B) (he : (P.entries r c)[i]? = some e) :
    ((schedsNet op n m tag eager sched).prog (r, c))[(A.flatMap (·.entries r c)).length + i]? =
      some (e.toTask op r (tag c)) := by
  have hi : i < (P.entries r c).length := lt_of_get he
  rw [schedsNet_prog hgood hsched, getElem?_map, hPs, flatMap_append, flatMap_cons,
    getElem?_append_right (Nat.le_add_right ..), Nat.add_sub_cancel_left, getElem?_append_left hi, he]
  rfl

variable (tag) in
theorem op_place (hPs : Ps = A ++ P :: B) (he : (P.entries r c)[i]? = some e) :
    (schedsNet op n m tag eager sched).op (place A r c i) = some (e.toTask op r (tag c)).op :=
  congrArg (Option.map Entry.op) (get_place tag hgood hsched op eager hPs he)

variable (tag) in
theorem barrier_place (hPs : Ps = A ++ P :: B) (he : (P.entries r c)[i]? = some e) :
    (schedsNet op n m tag eager sched).barrier (place A r c i) = e.barrier :=
  congrArg (Option.any Entry.barrier) (get_place tag hgood hsched op eager hPs he)

theorem dep_of_sync {B' C : List TaskRound} {P' : TaskRound} {cols : Nat} {obj : Nat → Option Nat}
    (hPs : Ps = A ++ P :: (B ++ .sync cols obj :: (B' ++ P' :: C))) {c' j : Nat} (hc : c < cols) (hc' : c' < cols)
    (hk : obj r = some k) (he : (P.entries r c)[i]? = some e) : (schedsNet op n m tag eager sched).Dep (place A r c i)
      (place (A ++ P :: (B ++ .sync cols obj :: B')) r c' j) := by
  have hi : i < (P.entries r c).length := lt_of_get he
  have hPs' : Ps = (A ++ P :: B) ++ .sync cols obj :: (B' ++ P' :: C) := by
    rw [hPs]
    simp only [append_assoc, cons_append]
  have hget : ∀ c'' < cols, ((TaskRound.sync cols obj).entries r c'')[0]? = some ⟨.sync k, true⟩ := by
    intro c'' hc''
    show (if c'' < cols then (obj r).toList.map _ else [])[0]? = _
    rw [if_pos hc'', hk]
    rfl
  refine .sync (a := ((A ++ P :: B).flatMap (·.entries r c)).length + 0)
    (b := ((A ++ P :: B).flatMap (·.entries r c')).length + 0) ?_ (op_place tag hgood hsched op eager hPs' (hget c hc))
    (op_place tag hgood hsched op eager hPs' (hget c' hc')) (barrier_place tag hgood hsched op eager hPs' (hget c' hc')) ?_
  · rw [flatMap_append, flatMap_cons, length_append, length_append]
    omega
  · have hlen := lt_of_get (hget c' hc')
    simp only [flatMap_append, flatMap_cons, length_append]
    omega

variable (tag Ps) in
def taskRoundOf (x : (Nat × Nat) × Nat) : Nat := roundOf (Ps.map (·.toRound op tag)) x.1 x.2

theorem exists_task_place (hx : x.2 < ((schedsNet op n m tag eager sched).prog x.1).length) :
    ∃ A P B i e, Ps = A ++ P :: B ∧ x = place A x.1.1 x.1.2 i ∧ (P.entries x.1.1 x.1.2)[i]? = some e ∧
      taskRoundOf tag Ps op x = A.length := by
  rw [schedsNet_prog_rounds hgood hsched] at hx
  obtain ⟨A, R, B, i, e, hRs, hi, he, hround⟩ := exists_place hx
  obtain ⟨A, D, rfl, rfl, hD⟩ := map_eq_append_iff.mp hRs
  obtain ⟨P, B, rfl, rfl, rfl⟩ := map_eq_cons_iff.mp hD
  obtain ⟨e, he, -⟩ := Option.map_eq_some_iff.mp ((getElem?_map ..).symm.trans he)
  refine ⟨A, P, B, i, e, rfl, ?_, he, hround.trans (length_map _)⟩
  rw [place, ← length_flatMap_toRound op tag, ← hi]

theorem exists_task_places {y : (Nat × Nat) × Nat} (hx : x.2 < ((schedsNet op n m tag eager sched).prog x.1).length)
    (hy : y.2 < ((schedsNet op n m tag eager sched).prog y.1).length)
    (hlt : taskRoundOf tag Ps op x < taskRoundOf tag Ps op y) :
    ∃ A P B P' C i e j e', Ps = A ++ P :: (B ++ P' :: C) ∧ x = place A x.1.1 x.1.2 i ∧
      (P.entries x.1.1 x.1.2)[i]? = some e ∧ y = place (A ++ P :: B) y.1.1 y.1.2 j ∧
      (P'.entries y.1.1 y.1.2)[j]? = some e' := by
  obtain ⟨A, P, B, i, e, hPs, hxA, he, hA⟩ := exists_task_place hgood hsched op eager hx
  obtain ⟨A', P', C, j, e', hPs', hyA, he', hA'⟩ := exists_task_place hgood hsched op eager hy
  rw [hA, hA'] at hlt
  obtain ⟨B', rfl⟩ := exists_between (hPs.symm.trans hPs') hlt
  exact ⟨A, P, B', P', C, i, e, j, e', by rw [hPs', append_assoc, cons_append], hxA, he, hyA, he'⟩

theorem exists_meeting (hx : (schedsNet op n m tag eager sched).op x = some (.sync k)) :
    ∃ A P B o, Ps = A ++ P :: B ∧ k = Nat.pair x.1.1 o ∧ P.Meets x.1.1 o ∧ taskRoundOf tag Ps op x = A.length := by
  obtain ⟨A, P, B, i, e, hPs, hxA, he, hround⟩ := exists_task_place hgood hsched op eager (Net.lt_length_of_op hx)
  have hop := op_place tag hgood hsched op eager hPs he
  rw [← hxA, hx] at hop
  obtain ⟨kind, b⟩ := e
  cases kind with
  | sync o =>
    have hk : k = Nat.pair x.1.1 o := by
      have h := Option.some.inj hop
      injection h
    exact ⟨A, P, B, o, hPs, hk, (hgood P (by simp [hPs])).meets (mem_of_getElem? he), hround⟩
  | _ => cases Option.some.inj hop

/-- Child tasks stand in front of the entries that stand for them, which can be started when it is the child's turn. -/
structure SubsInOrder (N : Net (Nat × Nat) Nat Chan Nat (Mem α) (List α)) (round : (Nat × Nat) × Nat → Nat) : Prop where
  above : ∀ p t, N.op p = some (.sub t) → ∀ j < (N.prog t).length, round (t, j) < round p
  ready : ∀ p t, N.op p = some (.sub t) → ∀ y : (Nat × Nat) × Nat, N.Under t y.1 → y.2 < (N.prog y.1).length →
    N.Ready round p (round y)
  deep : ∃ depth : Nat × Nat → Nat, ∀ p t, N.op p = some (.sub t) → depth p.1 < depth t

/-- **Programs of several schedules in rounds complete and compute their rounds.** Across rounds, the entries of a rank
wait for each other, may run beside each other, or are a send and what is done after it was read. The schedules that
another one starts come before it in the list, and can be started when it is their turn. -/
theorem completes_of_tasks (htag : TagsDiffer m tag) (mem : Nat → Mem α)
    (hobj : Ps.Pairwise fun P P' => ∀ r k, P.Meets r k → ¬ P'.Meets r k)
    (hapart : ∀ A P B P' C, Ps = A ++ P :: (B ++ P' :: C) → ∀ r c i e c' j e', (P.entries r c)[i]? = some e →
      (P'.entries r c')[j]? = some e' →
      (schedsNet op n m tag eager sched).Settled mem (place A r c i) (place (A ++ P :: B) r c' j))
    (hsubs : SubsInOrder (schedsNet op n m tag eager sched) (taskRoundOf tag Ps op)) :
    (schedsNet op n m tag eager sched).Completes mem fun s => ∀ r, s.mem r = execTasks op Ps mem r := by
  have hin : (schedsNet op n m tag eager sched).InRounds (schedsLayout m tag) mem (Ps.map (·.toRound op tag)) := by
    refine ⟨fun _ => rfl, schedsNet_prog_rounds hgood hsched op eager, fun R hR => ?_, fun x y hx hy hrank hlt => ?_,
      fun x y k hx hy => ?_, hsubs.above, hsubs.ready, hsubs.deep⟩
    · obtain ⟨P, hP, rfl⟩ := mem_map.mp hR
      exact (hgood P hP).toRound_good op htag
    · obtain ⟨A, P, B, P', C, i, e, j, e', hPs, hxA, he, hyA, he'⟩ := exists_task_places hgood hsched op eager hx hy hlt
      have hrank : x.1.1 = y.1.1 := hrank
      rw [hxA, hyA, ← hrank]
      rw [← hrank] at he'
      exact hapart A P B P' C hPs _ _ i e _ j e' he he'
    · -- the meetings at one object stand in one round
      obtain ⟨A, P, B, o, hPs, hk, hP, hround⟩ := exists_meeting hgood hsched op eager hx
      obtain ⟨A', P', B', o', hPs', hk', hP', hround'⟩ := exists_meeting hgood hsched op eager hy
      obtain ⟨hr, ho⟩ := Nat.pair_eq_pair.mp (hk.symm.trans hk')
      rw [← hr, ← ho] at hP'
      exact (hround.trans (length_eq_of_pairwise hobj hPs hPs' (fun h => h _ _ hP hP') fun h => h _ _ hP' hP)).trans
        hround'.symm
  refine hin.completes.imp fun s hs r => ?_
  rw [hs r, execAll_toTasks op htag hgood]

/-! ### Schedules that meet -/

omit hsched in
theorem raceFree_of_closed_tasks (htag : TagsDiffer m tag)
    (hclosed : ∀ P ∈ Ps, ∀ r c, ClosedEntries (P.entries r c)) (r c : Nat) :
    RaceFree ((Ps.flatMap (·.entries r c)).map (·.toTask op r (tag c))) := by
  induction Ps with
  | nil => trivial
  | cons P Ps ih =>
    have hP := hgood P mem_cons_self
    have hindep : ((P.entries r c).map (·.toTask op r (tag c))).Pairwise fun e e' => e.op.Indep e'.op := by
      by_cases hc : c < m
      · have hmem : P.toRound op tag (r, c) ∈ ((schedsLayout m tag).team r).map (P.toRound op tag) :=
          mem_map_of_mem (mem_team hc)
        exact ((hP.toRound_good op htag).indep r).sublist (sublist_flatten_of_mem hmem)
      · rw [hP.entries_eq_nil fun h => hc h.2]
        exact .nil
    rw [flatMap_cons, map_append]
    exact (RaceFree.of_indep hindep).append ((hclosed P mem_cons_self r c).toTask op r (tag c))
      (ih (fun P' h => hgood P' (mem_cons_of_mem _ h)) fun P' h => hclosed P' (mem_cons_of_mem _ h))

/-- **Schedules that run beside each other and meet.** They complete and compute their rounds if none of them races
with itself, and entries of different schedules are apart or have a meeting between them. -/
theorem completes_of_meetings (htag : TagsDiffer m tag) (mem : Nat → Mem α)
    (hplain : ∀ P ∈ Ps, ∀ c R, P ≠ .subs c R) (hobj : Ps.Pairwise fun P P' => ∀ r k, P.Meets r k → ¬ P'.Meets r k)
    (hrace : ∀ r c, RaceFree ((Ps.flatMap (·.entries r c)).map (·.toTask op r (tag c))))
    (hcross : ∀ A P B P' C, Ps = A ++ P :: (B ++ P' :: C) → ∀ r c c', c ≠ c' → ∀ e ∈ P.entries r c,
      ∀ e' ∈ P'.entries r c', e.kind.Apart e'.kind ∨
        ∃ cols obj k, .sync cols obj ∈ B ∧ c < cols ∧ c' < cols ∧ obj r = some k) :
    (schedsNet op n m tag eager sched).Completes mem fun s => ∀ r, s.mem r = execTasks op Ps mem r := by
  have hnosub : ∀ p t, (schedsNet op n m tag eager sched).op p ≠ some (.sub t) := by
    intro p t hp
    obtain ⟨A, P, B, i, e, hPs, hpA, he, -⟩ := exists_task_place hgood hsched op eager (Net.lt_length_of_op hp)
    have hop := op_place tag hgood hsched op eager hPs he
    rw [← hpA, hp] at hop
    have hP : P ∈ Ps := hPs ▸ mem_append_right _ mem_cons_self
    have hmem := mem_of_getElem? he
    obtain ⟨kind, b⟩ := e
    cases kind with
    | subsched i => exact (hgood P hP).not_subsched (hplain P hP) hmem
    | _ => cases Option.some.inj hop
  refine completes_of_tasks hgood hsched op eager htag mem hobj ?_ ⟨fun p t hp => absurd hp (hnosub p t),
    fun p t hp => absurd hp (hnosub p t), fun _ => 0, fun p t hp => absurd hp (hnosub p t)⟩
  intro A P B P' C hPs r c i e c' j e' he he'
  have hPs' : Ps = (A ++ P :: B) ++ P' :: C := by rw [hPs, append_assoc, cons_append]
  have hget' := get_place tag hgood hsched op eager hPs' he'
  by_cases hc : c = c'
  · subst hc
    have hfree : RaceFree ((schedsNet op n m tag eager sched).prog (r, c)) := by
      rw [schedsNet_prog hgood hsched]
      exact hrace r c
    refine (hfree.apart ?_ (lt_of_get hget')).imp_right .inl
    have hi := lt_of_get he
    rw [flatMap_append, flatMap_cons, length_append, length_append]
    omega
  · rcases hcross A P B P' C hPs r c c' hc e (mem_of_getElem? he) e' (mem_of_getElem? he') with h | h
    · refine .inr (.inl fun o o' ho ho' => ?_)
      cases (op_place tag hgood hsched op eager hPs he).symm.trans ho
      cases (op_place tag hgood hsched op eager hPs' he').symm.trans ho'
      exact h.toTask op r (tag c) (tag c')
    · obtain ⟨cols, obj, k, hsync, hlt, hlt', hk⟩ := h
      obtain ⟨B, B', rfl⟩ := append_of_mem hsync
      rw [append_assoc, cons_append] at hPs
      exact .inl (dep_of_sync hgood hsched op eager hPs hlt hlt' hk he)

end

end OneCcl
