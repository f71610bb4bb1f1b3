import OneCcl.Sched.Rounds

/-!
# What runs beside what

A builder may let several rounds run together and put one barrier behind them. A **group** is what a rank has
between two such barriers: nothing of a group is open at its end, and any two entries of it may run beside each
other, as they touch different memory or reduce into one result. Schedules made of groups do not race
(`raceFree_groups`), and conflicting entries of a rank run in the order of its schedule: when the later one was
started, the earlier one is over (`conflict_done`).
-/

namespace OneCcl

open Async List

variable {i j r n : Nat} {Gs : List (List SchedEntry)} {sched : Nat → Sched} {e : EntryKind} {p : CclBuffer × Nat}
  {s : Sched} {l : List SchedEntry} {ks : List EntryKind}

theorem flatten_cases {β : Type} {R : β → β → Prop} {Gs : List (List β)} (hR : ∀ G ∈ Gs, G.Pairwise R) (hij : i < j)
    {e e' : β} (hi : Gs.flatten[i]? = some e) (hj : Gs.flatten[j]? = some e') :
    (∃ A B, Gs = A ++ B ∧ i < A.flatten.length ∧ A.flatten.length ≤ j) ∨ R e e' := by
  induction Gs generalizing i j with
  | nil => cases hi
  | cons G Gs ih =>
    rw [flatten_cons] at hi hj
    rcases lt_or_ge i G.length with hiG | hiG
    · rcases lt_or_ge j G.length with hjG | hjG
      · right
        rw [getElem?_append_left hiG, getElem?_eq_getElem hiG] at hi
        rw [getElem?_append_left hjG, getElem?_eq_getElem hjG] at hj
        rw [← Option.some.inj hi, ← Option.some.inj hj]
        exact pairwise_iff_getElem.mp (hR G mem_cons_self) i j hiG hjG hij
      · exact .inl ⟨[G], Gs, rfl, by rwa [flatten_singleton], by rwa [flatten_singleton]⟩
    · rw [getElem?_append_right hiG] at hi
      rw [getElem?_append_right (by omega)] at hj
      rcases ih (fun G h => hR G (mem_cons_of_mem _ h)) (by omega) hi hj with ⟨A, B, hAB, h1, h2⟩ | h
      · refine .inl ⟨G :: A, B, by rw [hAB, cons_append], ?_, ?_⟩ <;>
          rw [flatten_cons, length_append] <;> omega
      · exact .inr h

variable {α : Type}

/-- The entries of a rank, in groups. -/
structure Grouped (Gs : List (List SchedEntry)) : Prop where
  beside : ∀ G ∈ Gs, G.Pairwise fun e e' => e.kind.Beside e'.kind
  closed : ∀ G ∈ Gs, ClosedEntries G

theorem closed_groups (h : ∀ G ∈ Gs, ClosedEntries G) (op : α → α → α) (r tag : Nat) :
    Async.Closed (Gs.flatten.map (·.toEntry op r tag (id : Nat → Nat))) := by
  induction Gs with
  | nil => trivial
  | cons G Gs ih =>
    rw [flatten_cons, map_append]
    exact ((h G mem_cons_self).closed op r tag).append (ih fun G' h' => h G' (mem_cons_of_mem _ h'))

theorem raceFree_groups (h : Grouped Gs) (op : α → α → α) [Std.Commutative op] [Std.Associative op] (r tag : Nat) :
    RaceFree (Gs.flatten.map (·.toEntry op r tag (id : Nat → Nat))) := by
  induction Gs with
  | nil => trivial
  | cons G Gs ih =>
    rw [flatten_cons, map_append]
    refine RaceFree.append (RaceFree.of_indep ?_) ((h.closed G mem_cons_self).closed op r tag)
      (ih ⟨fun G' h' => h.beside G' (mem_cons_of_mem _ h'), fun G' h' => h.closed G' (mem_cons_of_mem _ h')⟩)
    exact pairwise_map.mpr ((h.beside G mem_cons_self).imp fun h => h.indep op r tag r tag id)

theorem raceFree_of_groups {Rs : List SchedRound} (hRs : Rs.flatMap (· r) = Gs.flatten) (h : Grouped Gs)
    (op : α → α → α) [Std.Commutative op] [Std.Associative op] (tag : Nat) :
    RaceFree (Rs.flatMap fun R => R.toRound op tag r) := by
  have hmap : (Rs.flatMap fun R => R.toRound op tag r) =
      (Rs.flatMap (· r)).map (·.toEntry op r tag (id : Nat → Nat)) := by
    rw [map_flatMap]
    rfl
  rw [hmap, hRs]
  exact raceFree_groups h op r tag

/-- **Conflicting entries run in order**: in every reachable state, when an entry was started, every earlier
entry of its rank that touches the same memory is over. -/
theorem conflict_done (hr : r < n) (hsched : (sched r).entries = Gs.flatten) (h : Grouped Gs) {op : α → α → α}
    {tag : Nat} {eager : Nat → Nat → Bool} {mem : Nat → Mem α} {s : State Nat Nat Chan (Mem α) (List α)}
    (hreach : (schedNet op n tag eager sched).Reach mem s) (hij : i < j) {e e' : SchedEntry}
    (hi : (sched r).entries[i]? = some e) (hj : (sched r).entries[j]? = some e') (hconflict : ¬ e.kind.Beside e'.kind)
    (hstarted : s.stageAt (r, j) ≠ .idle) : s.stageAt (r, i) = .done := by
  rw [hsched] at hi hj
  rcases flatten_cases h.beside hij hi hj with ⟨A, B, hAB, h1, h2⟩ | hbeside
  · have hA : ∀ G ∈ A, ClosedEntries G := fun G hG => h.closed G (hAB ▸ mem_append_left _ hG)
    refine hreach.dep (Closed.dep (closed_groups hA op r tag)
      (B := B.flatten.map (·.toEntry op r tag id)) ?_ ?_ ?_) hstarted
    · show (if r < n then _ else _) = _
      rw [if_pos hr, hsched, hAB, flatten_append, map_append]
    · rwa [length_map]
    · rwa [length_map]
  · exact absurd hbeside hconflict

/-! ## Groups of rounds -/

def groupsAt (Gs : List (List SchedRound)) (r : Nat) : List (List SchedEntry) := Gs.map fun G => G.flatMap (· r)

theorem flatten_groupsAt (Gs : List (List SchedRound)) (r : Nat) : Gs.flatten.flatMap (· r) = (groupsAt Gs r).flatten := by
  rw [flatten_eq_flatMap, flatMap_assoc, groupsAt, ← flatMap_def]
  rfl

/-! ## Reducing before sending -/

/-- The piece of memory an entry leaves a reduction in. -/
def EntryKind.reduced : EntryKind → Option (CclBuffer × Nat)
  | .recvReduce inoutBuf cnt _ commBuf result => some ((reduceBufs inoutBuf commBuf result).2, cnt)
  | .reduceLocal _ cnt inoutBuf => some (inoutBuf, cnt)
  | _ => none

theorem EntryKind.mem_writes_of_reduced (h : e.reduced = some p) : p ∈ e.writes := by
  cases e with
  | recvReduce inoutBuf cnt src commBuf result =>
    cases h
    cases result
    · exact mem_cons_self
    · exact mem_cons_of_mem _ (mem_singleton.mpr rfl)
  | reduceLocal inBuf cnt inoutBuf =>
    cases h
    exact mem_singleton.mpr rfl
  | _ => cases h

/-- **No data is sent before its local reduction is over**: in every reachable state, when a send was started,
every reduction of its rank, wherever it stands in the schedule, that leaves a result in what is sent is done. -/
def ReducedBeforeSent (op : α → α → α) (n tag : Nat) (eager : Nat → Nat → Bool) (sched : Nat → Sched)
    (mem : Nat → Mem α) : Prop :=
  ∀ s, (schedNet op n tag eager sched).Reach mem s → ∀ r < n, ∀ i j e e' p buf cnt dst,
    (sched r).entries[i]? = some e → e.kind.reduced = some p →
    (sched r).entries[j]? = some e' → e'.kind = .send buf cnt dst →
    ¬ PieceApart p (buf, cnt) → s.stageAt (r, j) ≠ .idle → s.stageAt (r, i) = .done

/-- A send, and behind it a reduction into other data. -/
def SentThenApart (e e' : SchedEntry) : Prop :=
  ∀ buf cnt dst p, e.kind = .send buf cnt dst → e'.kind.reduced = some p → PieceApart p (buf, cnt)

theorem reducedBeforeSent_of_groups {Gs : Nat → List (List SchedEntry)}
    (hsched : ∀ r < n, (sched r).entries = (Gs r).flatten) (hgrouped : ∀ r < n, Grouped (Gs r))
    (hlate : ∀ r < n, (Gs r).flatten.Pairwise SentThenApart) (op : α → α → α) (tag : Nat) (eager : Nat → Nat → Bool)
    (mem : Nat → Mem α) : ReducedBeforeSent op n tag eager sched mem := by
  intro s hreach r hr i j e e' p buf cnt dst hi hp hj hk hoverlap hstarted
  rcases lt_trichotomy i j with hij | rfl | hji
  · refine conflict_done hr (hsched r hr) (hgrouped r hr) hreach hij hi hj (fun hbeside => hoverlap ?_) hstarted
    rw [hk] at hbeside
    revert hbeside hp
    generalize e.kind = k
    intro hp hbeside
    cases hbeside with
    | apart h => exact h.left p (EntryKind.mem_writes_of_reduced hp) (buf, cnt) (mem_singleton.mpr rfl)
  · cases hi.symm.trans hj
    rw [hk] at hp
    cases hp
  · rw [hsched r hr] at hi hj
    obtain ⟨hi', hi⟩ := List.getElem?_eq_some_iff.mp hi
    obtain ⟨hj', hj⟩ := List.getElem?_eq_some_iff.mp hj
    have := pairwise_iff_getElem.mp (hlate r hr) j i hj' hi' hji
    rw [hi, hj] at this
    exact absurd (this buf cnt dst p hk hp) hoverlap

/-! ## Receiving into free memory -/

/-- Where an entry has its message delivered. -/
def EntryKind.landing : EntryKind → Option (CclBuffer × Nat)
  | .recv buf cnt _ => some (buf, cnt)
  | .recvReduce _ cnt _ commBuf _ => some (commBuf, cnt)
  | .recvCopy recvBuf _ cnt _ => some (recvBuf, cnt)
  | _ => none

theorem EntryKind.mem_writes_of_landing (h : e.landing = some p) : p ∈ e.writes := by
  cases e with
  | recv buf cnt src =>
    cases h
    exact mem_singleton.mpr rfl
  | recvReduce inoutBuf cnt src commBuf result =>
    cases h
    exact mem_cons_of_mem _ (mem_singleton.mpr rfl)
  | recvCopy recvBuf copyBuf cnt src =>
    cases h
    exact mem_cons_self
  | _ => cases h

/-- **Messages land in free memory**: in every reachable state, when a receive was started, every earlier entry of
its rank that reads or writes where the message will land is done. -/
def LandsClear (op : α → α → α) (n tag : Nat) (eager : Nat → Nat → Bool) (sched : Nat → Sched)
    (mem : Nat → Mem α) : Prop :=
  ∀ s, (schedNet op n tag eager sched).Reach mem s → ∀ r < n, ∀ i j e e' p q, i < j →
    (sched r).entries[i]? = some e → q ∈ e.kind.reads ++ e.kind.writes →
    (sched r).entries[j]? = some e' → e'.kind.landing = some p →
    ¬ PieceApart p q → s.stageAt (r, j) ≠ .idle → s.stageAt (r, i) = .done

theorem EntryKind.Beside.landing {e' : EntryKind} (h : e.Beside e') {q : CclBuffer × Nat} (hp : e'.landing = some p)
    (hq : q ∈ e.reads ++ e.writes) : PieceApart p q := by
  cases h with
  | apart h =>
    rcases mem_append.mp hq with hq | hq
    · exact (h.right q hq p (mem_writes_of_landing hp)).symm
    · exact (h.left q hq p (mem_append_right _ (mem_writes_of_landing hp))).symm
  | merge h hin hin' =>
    cases hp
    rcases mem_pair.mp hq with rfl | rfl
    · exact hin'
    · exact h.symm

theorem landsClear_of_groups {Gs : Nat → List (List SchedEntry)}
    (hsched : ∀ r < n, (sched r).entries = (Gs r).flatten) (hgrouped : ∀ r < n, Grouped (Gs r)) (op : α → α → α)
    (tag : Nat) (eager : Nat → Nat → Bool) (mem : Nat → Mem α) : LandsClear op n tag eager sched mem :=
  fun _ hreach r hr _ _ _ _ _ _ hij hi hq hj hp hoverlap hstarted =>
    conflict_done hr (hsched r hr) (hgrouped r hr) hreach hij hi hj (fun h => hoverlap (h.landing hp hq)) hstarted

theorem EntryKind.landing_of_local (h : e.isLocal = true) : e.landing = none := by
  cases e with
  | recv | recvReduce | recvCopy => cases h
  | _ => rfl

theorem landsClear_of_local (h : ∀ r < n, ∀ e ∈ (sched r).entries, e.kind.isLocal = true) (op : α → α → α) (tag : Nat)
    (eager : Nat → Nat → Bool) (mem : Nat → Mem α) : LandsClear op n tag eager sched mem := by
  intro s _ r hr i j e e' p q _ _ _ hj hp
  rw [EntryKind.landing_of_local (h r hr e' (mem_of_getElem? hj))] at hp
  cases hp

/-! ## Groups of kinds

The builders create the entries of a group one after the other and call `add_barrier` at its end: the barrier is on
the last entry the rank has in the group, in whichever round that is. -/

/-- What every rank does in a round, barriers apart. -/
abbrev KindsRound : Type := Nat → List EntryKind

/-- The rounds of a group: a rank waits behind the last entry it has. -/
def groupRounds : List KindsRound → List SchedRound
  | [] => []
  | K :: Ks => .ofKindsAt (fun r => (Ks.flatMap (· r)).isEmpty) K :: groupRounds Ks

/-- Rounds given by their kinds, one after the other. -/
def execKinds (op : α → α → α) (Ks : List KindsRound) (σ : Nat → Mem α) : Nat → Mem α :=
  execRounds op (Ks.map (.ofKinds true)) σ

theorem execKinds_append (op : α → α → α) (A B : List KindsRound) (σ : Nat → Mem α) :
    execKinds op (A ++ B) σ = execKinds op B (execKinds op A σ) := by
  rw [execKinds, map_append, execRounds_append]
  rfl

theorem execKinds_frame {Ks : List KindsRound} (hgood : ∀ K ∈ Ks, KindsGood K n) (op : α → α → α) (σ : Nat → Mem α)
    {a : BufSrc × Nat} (ha : ∀ K ∈ Ks, ∀ k ∈ K r, ∀ p ∈ k.writes, a ∉ region p.1 p.2) : execKinds op Ks σ r a = σ r a := by
  induction Ks generalizing σ with
  | nil => rfl
  | cons K Ks ih =>
    have hK := (hgood K mem_cons_self).roomy.exec_frame op true σ (ha K mem_cons_self)
    exact (ih (fun K' h' => hgood K' (mem_cons_of_mem _ h')) _
      fun K' h' => ha K' (mem_cons_of_mem _ h')).trans hK

theorem entriesOf_append {b : Bool} {A B : List EntryKind} (hB : B ≠ []) :
    entriesOf b (A ++ B) = entriesOf false A ++ entriesOf b B := by
  induction A with
  | nil => rfl
  | cons k A ih =>
    obtain ⟨k', l, hl⟩ : ∃ k' l, A ++ B = k' :: l := by
      cases A with
      | nil => exact ⟨_, _, (cons_head_tail hB).symm⟩
      | cons k' A => exact ⟨k', A ++ B, rfl⟩
    have hcons : entriesOf false (k :: A) = ⟨k, false⟩ :: entriesOf false A := by
      cases A with
      | nil => rfl
      | cons k' A => rfl
    rw [cons_append, hcons, cons_append, ← ih, hl, entriesOf_cons_cons]

theorem entriesOf_false (ks : List EntryKind) : entriesOf false ks = ks.map (⟨·, false⟩) := by
  induction ks with
  | nil => rfl
  | cons k ks ih =>
    cases ks with
    | nil => rfl
    | cons k' ks =>
      rw [entriesOf_cons_cons, ih]
      rfl

theorem entriesOf_false_append (A B : List EntryKind) : entriesOf false (A ++ B) = entriesOf false A ++ entriesOf false B := by
  rw [entriesOf_false, entriesOf_false, entriesOf_false, map_append]

theorem Sched.addBarrier_group (h : s.entries = l ++ entriesOf false ks) (hne : ks ≠ []) :
    s.addBarrier.entries = l ++ entriesOf true ks := by
  obtain ⟨ks', k, rfl⟩ : ∃ ks' k, ks = ks' ++ [k] := ⟨_, _, (dropLast_append_getLast hne).symm⟩
  rw [entriesOf_append (cons_ne_nil k []), ← append_assoc] at h ⊢
  exact Sched.addBarrier_of_entries h

/-- There is nothing before the next entry, or a barrier. -/
def Fenced (l : List SchedEntry) : Prop := ∀ e ∈ l.getLast?, e.barrier = true

theorem Fenced.append_entriesOf (h : ks = [] → Fenced l) : Fenced (l ++ entriesOf true ks) := by
  rcases eq_nil_or_concat ks with rfl | ⟨ks, k, rfl⟩
  · rw [entriesOf_nil, append_nil]
    exact h rfl
  · rw [concat_eq_append, entriesOf_append (cons_ne_nil k []), ← append_assoc]
    intro e he
    rw [entriesOf_singleton, getLast?_concat] at he
    rw [← Option.some.inj he]

theorem Sched.addBarrier_fenced (h : s.entries = l ++ entriesOf false ks) (hl : ks = [] → Fenced l) :
    s.addBarrier.entries = l ++ entriesOf true ks := by
  by_cases hne : ks = []
  · subst hne
    rw [entriesOf_nil, append_nil] at h ⊢
    rcases eq_nil_or_concat l with rfl | ⟨l, e, rfl⟩
    · show makeLastBarrier s.entries = _
      rw [h]
      rfl
    · obtain ⟨k, b⟩ := e
      rw [concat_eq_append] at h hl ⊢
      have hb : b = true := hl rfl ⟨k, b⟩ (by rw [getLast?_concat]; rfl)
      rw [Sched.addBarrier_of_entries h, hb]
  · exact Sched.addBarrier_group h hne

theorem groupRounds_entries (G : List KindsRound) (r : Nat) :
    (groupRounds G).flatMap (· r) = entriesOf true (G.flatMap (· r)) := by
  induction G with
  | nil => rfl
  | cons K Ks ih =>
    rw [groupRounds, flatMap_cons, flatMap_cons, ih, SchedRound.ofKindsAt]
    by_cases h : Ks.flatMap (· r) = []
    · rw [h, append_nil, entriesOf_nil, append_nil]
      rfl
    · rw [entriesOf_append h, show (Ks.flatMap (· r)).isEmpty = false by rw [isEmpty_eq_false_iff]; exact h]

theorem groupRounds_good {G : List KindsRound} (h : ∀ K ∈ G, KindsGood K n) : ∀ R ∈ groupRounds G, R.IsGood n := by
  induction G with
  | nil => exact nofun
  | cons K Ks ih =>
    intro R hR
    rcases mem_cons.mp hR with rfl | hR
    · exact ⟨_, _, (h K mem_cons_self).good_at _⟩
    · exact ih (fun K' h' => h K' (mem_cons_of_mem _ h')) R hR

theorem groupRounds_exec (op : α → α → α) (G : List KindsRound) (σ : Nat → Mem α) :
    execRounds op (groupRounds G) σ = execKinds op G σ := by
  induction G generalizing σ with
  | nil => rfl
  | cons K Ks ih =>
    rw [groupRounds, execRounds, ih, SchedRound.exec_barrier op _ true]
    rfl

theorem groupRounds_flatMap_exec (op : α → α → α) (Gs : List (List KindsRound)) (σ : Nat → Mem α) :
    execRounds op (Gs.flatMap groupRounds) σ = execKinds op Gs.flatten σ := by
  induction Gs generalizing σ with
  | nil => rfl
  | cons G Gs ih =>
    rw [flatMap_cons, execRounds_append, ih, groupRounds_exec, flatten_cons, execKinds_append]

/-- The entries of a rank in groups of kinds. -/
def kindGroupsAt (Gs : List (List KindsRound)) (r : Nat) : List (List SchedEntry) :=
  Gs.map fun G => entriesOf true (G.flatMap (· r))

theorem flatten_kindGroupsAt (Gs : List (List KindsRound)) (r : Nat) :
    (Gs.flatMap groupRounds).flatMap (· r) = (kindGroupsAt Gs r).flatten := by
  rw [flatMap_assoc, kindGroupsAt, ← flatMap_def]
  exact flatMap_congr fun G _ => groupRounds_entries G r

/-- Rounds that may run beside each other in their groups. -/
structure KindGroups (n : Nat) (Gs : List (List KindsRound)) : Prop where
  good : ∀ G ∈ Gs, ∀ K ∈ G, KindsGood K n
  beside : ∀ G ∈ Gs, ∀ r, (G.flatMap (· r)).Pairwise EntryKind.Beside

theorem KindGroups.kindsGood {Gs : List (List KindsRound)} (h : KindGroups n Gs) : ∀ K ∈ Gs.flatten, KindsGood K n := by
  intro K hK
  obtain ⟨G, hG, hK⟩ := mem_flatten.mp hK
  exact h.good G hG K hK

theorem KindGroups.append {Gs Gs' : List (List KindsRound)} (h : KindGroups n Gs) (h' : KindGroups n Gs') :
    KindGroups n (Gs ++ Gs') :=
  ⟨fun G hG => (mem_append.mp hG).elim (h.good G) (h'.good G),
    fun G hG => (mem_append.mp hG).elim (h.beside G) (h'.beside G)⟩

theorem KindGroups.grouped {Gs : List (List KindsRound)} (h : KindGroups n Gs) (r : Nat) : Grouped (kindGroupsAt Gs r) := by
  refine ⟨fun l hl => ?_, fun l hl => ?_⟩
  · obtain ⟨G, hG, rfl⟩ := mem_map.mp hl
    have := h.beside G hG r
    rwa [← map_kind_entriesOf true (G.flatMap (· r)), pairwise_map] at this
  · obtain ⟨G, hG, rfl⟩ := mem_map.mp hl
    by_cases hnil : G.flatMap (· r) = []
    · rw [hnil]
      exact .inr nofun
    · exact .inl (getLast?_entriesOf true _ hnil)

/-- **Builders whose schedules are groups of kinds**: the schedules complete, compute their rounds, match their
messages, and receive into free memory. -/
theorem contract_of_kindGroups {build : Nat → Option Sched} {Gs : List (List KindsRound)}
    (hbuild : ∀ r < n, ∃ s, build r = some s ∧ s.entries = (kindGroupsAt Gs r).flatten) (h : KindGroups n Gs)
    (op : α → α → α) [Std.Commutative op] [Std.Associative op] (tag : Nat) (eager : Nat → Nat → Bool) (mem : Nat → Mem α) :
    ∃ sched : Nat → Sched, (∀ r < n, build r = some (sched r)) ∧
      ((schedNet op n tag eager sched).Completes mem fun s => ∀ r, s.mem r = execKinds op Gs.flatten mem r) ∧
      MessagesMatch n sched ∧ LandsClear op n tag eager sched mem := by
  have hgood : ∀ R ∈ Gs.flatMap groupRounds, R.IsGood n := by
    intro R hR
    obtain ⟨G, hG, hR⟩ := mem_flatMap.mp hR
    exact groupRounds_good (h.good G hG) R hR
  have hrounds : ∀ r < n, ∃ s, build r = some s ∧ s.entries = (Gs.flatMap groupRounds).flatMap (· r) := by
    intro r hr
    rw [flatten_kindGroupsAt]
    exact hbuild r hr
  obtain ⟨sched, hsched, hrun, hmatch⟩ := contract_of_rounds hrounds hgood
    (fun r => raceFree_of_groups (flatten_kindGroupsAt Gs r) (h.grouped r) op tag) eager mem
  rw [groupRounds_flatMap_exec] at hrun
  refine ⟨sched, hsched, hrun, hmatch, landsClear_of_groups (fun r hr => ?_) (fun r _ => h.grouped r) op tag eager mem⟩
  obtain ⟨s, hs, he⟩ := hbuild r hr
  rw [hsched r hr] at hs
  rw [Option.some.inj hs, he]

end OneCcl
