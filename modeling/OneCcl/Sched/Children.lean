import OneCcl.Sched.Groups
import OneCcl.Sched.Tasks

/-!
# Schedules that start others

How a program of several schedules is shown to complete when some of them are started by others, entry by entry rather
than round by round (`completes_of_entries`): entries of one schedule are told apart by the barriers between them
(`Spaced`), a send may be overtaken in the buffer by the answer to it (`readFirst_of_reply`), and the order of the rounds
is told by phases (`taskRoundOf_lt_of_phase`).
-/

namespace OneCcl

open Async List EntryKind TaskRound

variable {α : Type}
variable {R : SchedEntry → SchedEntry → Prop} {l : List SchedEntry} {i j d s c' i' a : Nat} {β γ : Type*} {x : β}
  {e e' : SchedEntry} {t : Nat × Nat} {A B : List TaskRound} {P : TaskRound} {p : (Nat × Nat) × Nat} {b : Bool}

/-! ## Entries of one schedule -/

/-- Any two entries of a schedule have a barrier between them, which the first one may be, or are related. -/
def Spaced (R : SchedEntry → SchedEntry → Prop) (l : List SchedEntry) : Prop :=
  ∀ (i j : Nat) e e', i < j → l[i]? = some e → l[j]? = some e' →
    (∃ b, ∃ eb : SchedEntry, i ≤ b ∧ b < j ∧ l[b]? = some eb ∧ eb.barrier = true) ∨ R e e'

theorem Spaced.of_pairwise (h : l.Pairwise R) : Spaced R l := by
  intro i j e e' hij he he'
  obtain ⟨hi, rfl⟩ := List.getElem?_eq_some_iff.mp he
  obtain ⟨hj, rfl⟩ := List.getElem?_eq_some_iff.mp he'
  exact .inr (pairwise_iff_getElem.mp h i j hi hj hij)

theorem Fenced.exists_last (h : Fenced l) (hi : i < l.length) :
    ∃ b, ∃ e : SchedEntry, i ≤ b ∧ l[b]? = some e ∧ e.barrier = true := by
  have hne : l ≠ [] := ne_nil_of_length_pos (by omega)
  refine ⟨l.length - 1, l.getLast hne, by omega, ?_, h _ (getLast?_eq_some_getLast hne)⟩
  rw [← getLast?_eq_getElem?, getLast?_eq_some_getLast hne]

theorem Spaced.append {A B : List SchedEntry} (hA : Spaced R A) (hB : Spaced R B)
    (hAB : Fenced A ∨ ∀ e ∈ A, ∀ e' ∈ B, R e e') : Spaced R (A ++ B) := by
  intro i j e e' hij he he'
  rcases lt_or_ge j A.length with hj | hj
  · rw [getElem?_append_left (by omega)] at he he'
    rcases hA i j e e' hij he he' with ⟨b, eb, hib, hbj, hb, hbar⟩ | h
    · exact .inl ⟨b, eb, hib, hbj, (getElem?_append_left (by omega)).trans hb, hbar⟩
    · exact .inr h
  rw [getElem?_append_right hj] at he'
  rcases lt_or_ge i A.length with hi | hi
  · rw [getElem?_append_left hi] at he
    rcases hAB with hf | h
    · obtain ⟨b, eb, hib, hb, hbar⟩ := hf.exists_last hi
      have hlt := lt_of_get hb
      exact .inl ⟨b, eb, hib, by omega, (getElem?_append_left hlt).trans hb, hbar⟩
    · exact .inr (h e (mem_of_getElem? he) e' (mem_of_getElem? he'))
  · rw [getElem?_append_right hi] at he
    rcases hB (i - A.length) (j - A.length) e e' (by omega) he he' with ⟨b, eb, hib, hbj, hb, hbar⟩ | h
    · refine .inl ⟨A.length + b, eb, by omega, by omega, ?_, hbar⟩
      rw [getElem?_append_right (Nat.le_add_right ..), Nat.add_sub_cancel_left, hb]
    · exact .inr h

/-- The only message of a schedule to a rank. -/
structure OnlySend (l : List SchedEntry) (i d : Nat) : Prop where
  here : ∃ (e : SchedEntry) (c : Nat), l[i]? = some e ∧ e.kind.sentTo = some (d, c)
  only : ∀ j (e : SchedEntry) (c : Nat), l[j]? = some e → e.kind.sentTo = some (d, c) → j = i

/-- The only message of a schedule from a rank. -/
structure OnlyRecv (l : List SchedEntry) (i s : Nat) : Prop where
  here : ∃ (e : SchedEntry) (c : Nat), l[i]? = some e ∧ e.kind.receivedFrom = some (s, c)
  only : ∀ j (e : SchedEntry) (c : Nat), l[j]? = some e → e.kind.receivedFrom = some (s, c) → j = i

theorem eq_of_nodup_filterMap {l : List β} {f : β → Option γ} (h : (l.filterMap f).Nodup) {y : β} {v : γ}
    (hi : l[i]? = some x) (hj : l[j]? = some y) (hx : f x = some v) (hy : f y = some v) : i = j := by
  obtain ⟨hli, rfl⟩ := List.getElem?_eq_some_iff.mp hi
  obtain ⟨hlj, rfl⟩ := List.getElem?_eq_some_iff.mp hj
  have hpair := pairwise_iff_getElem.mp (pairwise_filterMap.mp h)
  rcases lt_trichotomy i j with hij | hij | hij
  · exact absurd rfl (hpair i j hli hlj hij v hx v hy)
  · exact hij
  · exact absurd rfl (hpair j i hlj hli hij v hy v hx)

variable {c : Nat}

theorem OnlySend.of_nodup (h : (l.filterMap fun e => e.kind.sentTo.map Prod.fst).Nodup)
    (hi : l[i]? = some e) (he : e.kind.sentTo = some (d, c)) : OnlySend l i d where
  here := ⟨e, c, hi, he⟩
  only _ _ _ hj he' := eq_of_nodup_filterMap h hj hi (congrArg (Option.map Prod.fst) he') (congrArg (Option.map Prod.fst) he)

theorem OnlyRecv.of_nodup (h : (l.filterMap fun e => e.kind.receivedFrom.map Prod.fst).Nodup)
    (hi : l[i]? = some e) (he : e.kind.receivedFrom = some (s, c)) : OnlyRecv l i s where
  here := ⟨e, c, hi, he⟩
  only _ _ _ hj he' := eq_of_nodup_filterMap h hj hi (congrArg (Option.map Prod.fst) he') (congrArg (Option.map Prod.fst) he)

@[simp] theorem EntryKind.onRank_sentTo (r : Nat) (e : EntryKind) : (e.onRank r).sentTo = e.sentTo := by
  cases e <;> rfl

@[simp] theorem EntryKind.onRank_receivedFrom (r : Nat) (e : EntryKind) : (e.onRank r).receivedFrom = e.receivedFrom := by
  cases e <;> rfl

theorem SchedEntry.exists_act (h : e.kind.isLocal = true) (op : α → α → α) (r tag : Nat) :
    ∃ f, (e.toTask op r tag).op = .act f := by
  obtain ⟨kind, b⟩ := e
  cases kind with
  | copy | reduceLocal => exact ⟨_, rfl⟩
  | _ => cases h

theorem EntryKind.Beside.toTask (h : e.kind.Beside e'.kind) (op : α → α → α) [Std.Commutative op] [Std.Associative op]
    (r tag tag' : Nat) : (e.toTask op r tag).op.Indep (e'.toTask op r tag').op := by
  obtain ⟨kind, b⟩ := e
  obtain ⟨kind', b'⟩ := e'
  cases h with
  | apart h =>
    exact h.toTask op r tag tag'
  | merge h hin hin' => exact (EntryKind.Beside.merge h hin hin').indep op r tag r tag' (Prod.mk r)

theorem EntryKind.apart_subsched (i : Nat) (k : EntryKind) : (subsched i).Apart k :=
  ⟨forall_mem_nil _, forall_mem_nil _⟩

/-! ## Places of the net -/

section

variable {n m : Nat} {tag : Nat → Nat} {sched : Nat → Nat → Sched} (op : α → α → α) (eager : Nat × Nat → Nat → Bool)

variable {r : Nat}

theorem schedsNet_get (hr : r < n) (hc : c < m) (he : (sched r c).entries[i]? = some e) :
    ((schedsNet op n m tag eager sched).prog (r, c))[i]? = some (e.toTask op r (tag c)) := by
  show (if r < n ∧ c < m then _ else _)[i]? = _
  rw [if_pos ⟨hr, hc⟩, getElem?_map, he]
  rfl

theorem schedsNet_op (hr : r < n) (hc : c < m) (he : (sched r c).entries[i]? = some e) :
    (schedsNet op n m tag eager sched).op ((r, c), i) = some (e.toTask op r (tag c)).op :=
  congrArg (Option.map Entry.op) (schedsNet_get op eager hr hc he)

theorem schedsNet_barrier (hr : r < n) (hc : c < m) (he : (sched r c).entries[i]? = some e) :
    (schedsNet op n m tag eager sched).barrier ((r, c), i) = e.barrier :=
  congrArg (Option.any Entry.barrier) (schedsNet_get op eager hr hc he)

theorem exists_entry {x : (Nat × Nat) × Nat} (hx : x.2 < ((schedsNet op n m tag eager sched).prog x.1).length) :
    x.1.1 < n ∧ x.1.2 < m ∧ ∃ e, (sched x.1.1 x.1.2).entries[x.2]? = some e := by
  have hx : x.2 < (if x.1.1 < n ∧ x.1.2 < m then (sched x.1.1 x.1.2).entries.map (·.toTask op x.1.1 (tag x.1.2))
    else []).length := hx
  split at hx
  next h =>
    rw [length_map] at hx
    exact ⟨h.1, h.2, _, getElem?_eq_getElem hx⟩
  next => exact absurd hx (Nat.not_lt_zero _)

theorem exists_entry_of_op {x : (Nat × Nat) × Nat} {o : Op (Nat × Nat) Chan Nat (Mem α) (List α)}
    (hx : (schedsNet op n m tag eager sched).op x = some o) :
    x.1.1 < n ∧ x.1.2 < m ∧ ∃ e, (sched x.1.1 x.1.2).entries[x.2]? = some e ∧ (e.toTask op x.1.1 (tag x.1.2)).op = o := by
  obtain ⟨hr, hc, e, he⟩ := exists_entry op eager (Net.lt_length_of_op hx)
  exact ⟨hr, hc, e, he, Option.some.inj ((schedsNet_op op eager hr hc he).symm.trans hx)⟩

theorem schedsNet_indep (hr : r < n) (hc : c < m) (hc' : c' < m) (he : (sched r c).entries[i]? = some e)
    (he' : (sched r c').entries[j]? = some e') (h : e.kind.Apart e'.kind) :
    (schedsNet op n m tag eager sched).Indep ((r, c), i) ((r, c'), j) := by
  intro o o' ho ho'
  cases (schedsNet_op op eager hr hc he).symm.trans ho
  cases (schedsNet_op op eager hr hc' he').symm.trans ho'
  exact h.toTask op r (tag c) (tag c')

theorem schedsNet_beside [Std.Commutative op] [Std.Associative op] (hr : r < n) (hc : c < m)
    (he : (sched r c).entries[i]? = some e) (he' : (sched r c).entries[j]? = some e') (h : e.kind.Beside e'.kind) :
    (schedsNet op n m tag eager sched).Indep ((r, c), i) ((r, c), j) := by
  intro o o' ho ho'
  cases (schedsNet_op op eager hr hc he).symm.trans ho
  cases (schedsNet_op op eager hr hc he').symm.trans ho'
  exact h.toTask op r (tag c) (tag c)

theorem op_sub_iff {x : (Nat × Nat) × Nat} :
    (schedsNet op n m tag eager sched).op x = some (.sub t) ↔ x.1.1 < n ∧ x.1.2 < m ∧ t.1 = x.1.1 ∧
      ∃ b, (sched x.1.1 x.1.2).entries[x.2]? = some ⟨.subsched t.2, b⟩ := by
  constructor
  · intro hx
    obtain ⟨hr, hc, ⟨kind, b⟩, he, hop⟩ := exists_entry_of_op op eager hx
    cases kind with
    | subsched i =>
      injection hop with hop
      subst hop
      exact ⟨hr, hc, rfl, b, he⟩
    | _ => cases hop
  · rintro ⟨hr, hc, ht, b, he⟩
    rw [show x = ((x.1.1, x.1.2), x.2) from rfl, schedsNet_op op eager hr hc he]
    show some (Op.sub (x.1.1, t.2)) = _
    rw [← ht]

variable (n sched) in
def schedsWiring (htag : ∀ c < m, ∀ c' < m, tag c = tag c' → c = c') :
    (schedsNet op n m tag eager sched).Wiring where
  sender c := (c.src, schedOf m tag c.tag)
  receiver c := (c.dst, schedOf m tag c.tag)
  sender_eq x c read hx := by
    obtain ⟨-, hc, e, -, hop⟩ := exists_entry_of_op op eager hx
    obtain ⟨buf, cnt, dst, -, rfl, -⟩ := toOp_send hop
    show x.1 = (x.1.1, schedOf m tag (tag x.1.2))
    rw [schedOf_tag htag hc]
  receiver_eq x c fits store finish hx := by
    obtain ⟨-, hc, e, -, hop⟩ := exists_entry_of_op op eager hx
    obtain ⟨src, cnt, -, rfl, -⟩ := toOp_recv hop
    show x.1 = (x.1.1, schedOf m tag (tag x.1.2))
    rw [schedOf_tag htag hc]

theorem eq_singleton_of_nodup {l : List β} (h : l.Nodup) (hmem : ∀ y, y ∈ l ↔ y = x) : l = [x] := by
  refine perm_singleton.mp ((perm_ext_iff_of_nodup h (nodup_singleton x)).mpr fun y => ?_)
  rw [hmem, mem_singleton]

theorem sends_of_only (htag : TagsDiffer m tag) (hr : r < n) (hc : c < m)
    (h : OnlySend (sched r c).entries i d) : (schedsWiring n sched op eager htag).sends ⟨r, d, tag c⟩ = [((r, c), i)] := by
  refine eq_singleton_of_nodup (Net.picked_nodup ..) fun y => ?_
  rw [Net.Wiring.mem_sends]
  constructor
  · rintro ⟨read, hy⟩
    have ht := (schedsWiring n sched op eager htag).sender_eq y _ read hy
    obtain ⟨⟨r', c'⟩, j⟩ := y
    have ht : (r', c') = (r, schedOf m tag (tag c)) := ht
    rw [schedOf_tag htag hc] at ht
    obtain ⟨rfl, rfl⟩ := Prod.mk.inj ht
    obtain ⟨-, -, e, he, hop⟩ := exists_entry_of_op op eager hy
    obtain ⟨buf, cnt, dst, hkind, hchan, -⟩ := toOp_send hop
    have hsent : e.kind.sentTo = some (d, cnt) := by
      rw [← onRank_sentTo r', hkind, sentTo_send, (Chan.mk.inj hchan).2.1]
    rw [h.only j e cnt he hsent]
  · rintro rfl
    obtain ⟨⟨kind, b⟩, cnt, he, hsent⟩ := h.here
    cases kind with
    | send buf cnt' dst =>
      cases hsent
      exact ⟨_, schedsNet_op op eager hr hc he⟩
    | _ => cases hsent

theorem recvs_of_only (htag : TagsDiffer m tag) (hr : r < n) (hc : c < m)
    (h : OnlyRecv (sched r c).entries i s) : (schedsWiring n sched op eager htag).recvs ⟨s, r, tag c⟩ = [((r, c), i)] := by
  refine eq_singleton_of_nodup (Net.picked_nodup ..) fun y => ?_
  rw [Net.Wiring.mem_recvs]
  constructor
  · rintro ⟨fits, store, finish, hy⟩
    have ht := (schedsWiring n sched op eager htag).receiver_eq y _ fits store finish hy
    obtain ⟨⟨r', c'⟩, j⟩ := y
    have ht : (r', c') = (r, schedOf m tag (tag c)) := ht
    rw [schedOf_tag htag hc] at ht
    cases ht
    obtain ⟨-, -, e, he, hop⟩ := exists_entry_of_op op eager hy
    obtain ⟨src, cnt, hkind, hchan, -⟩ := toOp_recv hop
    rw [onRank_receivedFrom, ← (Chan.mk.inj hchan).1] at hkind
    rw [h.only j e cnt he hkind]
  · rintro rfl
    obtain ⟨⟨kind, b⟩, cnt, he, hrecv⟩ := h.here
    have hop : (schedsNet op n m tag eager sched).op ((r, c), i) = _ := schedsNet_op op eager hr hc he
    cases kind with
    | recv _ _ src | recvReduce _ _ src | recvCopy _ _ _ src =>
      cases hrecv
      exact ⟨_, _, _, hop⟩
    | _ => cases hrecv

/-- **A reply.** A rank sends to another one and receives from it, each once; the other one receives, and behind a
barrier sends. By the time the reply arrives the transport has read what was sent. -/
theorem readFirst_of_reply (htag : TagsDiffer m tag) (mem : Nat → Mem α) {v k l b : Nat}
    {eb : SchedEntry} (hr : r < n) (hv : v < n) (hc : c < m) (hsend : OnlySend (sched r c).entries i v)
    (hrecv : OnlyRecv (sched v c).entries k r) (hkb : k ≤ b) (hbl : b < l) (hb : (sched v c).entries[b]? = some eb)
    (hbar : eb.barrier = true) (hreply : OnlySend (sched v c).entries l r) (hlast : OnlyRecv (sched r c).entries j v) :
    (schedsNet op n m tag eager sched).ReadFirst mem ((r, c), i) ((r, c), j) := by
  have hx : ((schedsWiring n sched op eager htag).sends ⟨r, v, tag c⟩)[0]? = some ((r, c), i) := by
    rw [sends_of_only op eager htag hr hc hsend]
    rfl
  have hz : ((schedsWiring n sched op eager htag).recvs ⟨r, v, tag c⟩)[0]? = some ((v, c), k) := by
    rw [recvs_of_only op eager htag hv hc hrecv]
    rfl
  have hback : ((schedsWiring n sched op eager htag).sends ⟨v, r, tag c⟩)[0]? = some ((v, c), l) := by
    rw [sends_of_only op eager htag hv hc hreply]
    rfl
  have hy : ((schedsWiring n sched op eager htag).recvs ⟨v, r, tag c⟩)[0]? = some ((r, c), j) := by
    rw [recvs_of_only op eager htag hr hc hlast]
    rfl
  have hdep : (schedsNet op n m tag eager sched).Dep ((v, c), k) ((v, c), l) :=
    .barrier hkb hbl ((schedsNet_barrier op eager hv hc hb).trans hbar)
  exact Net.readFirst_of_answer _ mem hx hz hdep hback hy

end

/-! ## Programs told entry by entry -/

section

variable {n m : Nat} {tag : Nat → Nat} {sched : Nat → Nat → Sched} {Ps : List TaskRound}
  (hgood : ∀ P ∈ Ps, P.IsGood n m)
  (hsched : ∀ r < n, ∀ c < m, (sched r c).entries = Ps.flatMap (·.entries r c))
  (op : α → α → α) (eager : Nat × Nat → Nat → Bool)

include hgood hsched

variable {r : Nat}

variable (tag) in
theorem exists_round_of_entry (hr : r < n) (hc : c < m) (he : (sched r c).entries[i]? = some e) :
    ∃ A P B, Ps = A ++ P :: B ∧ e ∈ P.entries r c ∧ taskRoundOf tag Ps op ((r, c), i) = A.length := by
  have hlen : i < ((schedsNet op n m tag (fun _ _ => false) sched).prog (r, c)).length :=
    lt_of_get (schedsNet_get op _ hr hc he)
  obtain ⟨A, P, B, k, e', hPs, hx, he', hround⟩ := exists_task_place (x := ((r, c), i)) hgood hsched op _ hlen
  have hk : i = (A.flatMap (·.entries r c)).length + k := (Prod.mk.inj hx).2
  have hlt := lt_of_get he'
  rw [hsched r hr c hc, hPs, flatMap_append, flatMap_cons, hk, getElem?_append_right (Nat.le_add_right ..),
    Nat.add_sub_cancel_left, getElem?_append_left hlt] at he
  exact ⟨A, P, B, hPs, mem_of_getElem? he, hround⟩

variable (tag) in
theorem exists_phase_of_entry {L : List (Nat × TaskRound)} (hL : Ps = L.map Prod.snd) (hr : r < n) (hc : c < m)
    (he : (sched r c).entries[i]? = some e) :
    ∃ A a P B, L = A ++ (a, P) :: B ∧ e ∈ P.entries r c ∧ taskRoundOf tag Ps op ((r, c), i) = A.length := by
  obtain ⟨A, P, B, hPs, hmem, hround⟩ := exists_round_of_entry tag hgood hsched op hr hc he
  obtain ⟨A, D, hLA, rfl, hD⟩ := map_eq_append_iff.mp (hL.symm.trans hPs)
  obtain ⟨⟨a, P⟩, B, rfl, rfl, rfl⟩ := map_eq_cons_iff.mp hD
  exact ⟨A, a, P, B, hLA, hmem, hround.trans (length_map _)⟩

theorem taskRoundOf_lt_of_phase {L : List (Nat × TaskRound)} (hL : Ps = L.map Prod.snd)
    (hsorted : L.Pairwise fun a b => a.1 ≤ b.1) {r' : Nat} (hr : r < n) (hc : c < m) (hr' : r' < n) (hc' : c' < m)
    (he : (sched r c).entries[i]? = some e) (he' : (sched r' c').entries[i']? = some e')
    (hphase : ∀ a P, (a, P) ∈ L → e ∈ P.entries r c → ∀ a' P', (a', P') ∈ L → e' ∈ P'.entries r' c' → a < a') :
    taskRoundOf tag Ps op ((r, c), i) < taskRoundOf tag Ps op ((r', c'), i') := by
  obtain ⟨A, a, P, B, hLA, hmem, hround⟩ := exists_phase_of_entry tag hgood hsched op hL hr hc he
  obtain ⟨A', a', P', B', hLA', hmem', hround'⟩ := exists_phase_of_entry tag hgood hsched op hL hr' hc' he'
  have hlt : a < a' := by
    refine hphase a P ?_ hmem a' P' ?_ hmem'
    · rw [hLA]
      exact mem_append_right _ mem_cons_self
    · rw [hLA']
      exact mem_append_right _ mem_cons_self
  rw [hround, hround']
  rcases lt_trichotomy A.length A'.length with h | h | h
  · exact h
  · have heq := append_inj (hLA.symm.trans hLA') h
    rw [(Prod.mk.inj (cons.inj heq.2).1).1] at hlt
    exact absurd hlt (lt_irrefl _)
  · obtain ⟨D, rfl⟩ := exists_between (hLA'.symm.trans hLA) h
    rw [hLA, append_assoc, cons_append] at hsorted
    have hle := (pairwise_cons.mp (pairwise_append.mp hsorted).2.1).1 (a, P)
      (mem_append_right _ mem_cons_self)
    exact absurd hlt hle.not_gt

theorem entry_of_place (hPs : Ps = A ++ P :: B) (he : (P.entries r c)[i]? = some e) :
    r < n ∧ c < m ∧ (sched r c).entries[(A.flatMap (·.entries r c)).length + i]? = some e := by
  have hrc : r < n ∧ c < m := by
    by_contra hrc
    rw [(hgood P (by simp [hPs])).entries_eq_nil hrc] at he
    cases he
  refine ⟨hrc.1, hrc.2, ?_⟩
  rw [hsched r hrc.1 c hrc.2, hPs, flatMap_append, flatMap_cons, getElem?_append_right (Nat.le_add_right ..),
    Nat.add_sub_cancel_left, getElem?_append_left (lt_of_get he), he]

omit hgood hsched in
theorem taskRoundOf_place (hPs : Ps = A ++ P :: B) (he : (P.entries r c)[i]? = some e) :
    taskRoundOf tag Ps op (place A r c i) = A.length := by
  have hi : i < (P.toRound op tag (r, c)).length :=
    Nat.lt_of_lt_of_eq (lt_of_get he) (length_map _).symm
  rw [taskRoundOf, place, hPs, map_append, map_cons, ← length_flatMap_toRound op tag A (r, c), roundOf_eq _ _ _ hi,
    length_map]

theorem ready_of_gap (htag : TagsDiffer m tag) {ℓ : Nat}
    (hp : p.2 < ((schedsNet op n m tag eager sched).prog p.1).length)
    (hgap : ∀ i < p.2, ¬ (schedsNet op n m tag eager sched).IsAct (p.1, i) →
      taskRoundOf tag Ps op (p.1, i) < taskRoundOf tag Ps op p → taskRoundOf tag Ps op (p.1, i) < ℓ) :
    (schedsNet op n m tag eager sched).Ready (taskRoundOf tag Ps op) p ℓ := by
  refine Net.Ready.lower ?_ hgap
  refine Net.ready_of_rounds (T := schedsLayout m tag) (schedsNet_prog_rounds hgood hsched op eager) (fun R hR => ?_) p hp
  obtain ⟨P, hP, rfl⟩ := mem_map.mp hR
  exact (hgood P hP).toRound_good op htag

/-- **Programs of several schedules, told entry by entry.** They complete and compute their rounds if any two entries of
a schedule are kept apart by a barrier, may run beside each other or are a send and what is done after it was read, and
the same is so of entries of different schedules of a rank, in the order of their rounds. -/
theorem completes_of_entries (htag : TagsDiffer m tag) (mem : Nat → Mem α)
    (hobj : Ps.Pairwise fun P P' => ∀ r k, P.Meets r k → ¬ P'.Meets r k)
    (hsame : ∀ r < n, ∀ c < m, ∀ i j e e', i < j → (sched r c).entries[i]? = some e →
      (sched r c).entries[j]? = some e' →
      (schedsNet op n m tag eager sched).Settled mem ((r, c), i) ((r, c), j))
    (hcross : ∀ r < n, ∀ c < m, ∀ c' < m, c ≠ c' → ∀ i j e e', (sched r c).entries[i]? = some e →
      (sched r c').entries[j]? = some e' → taskRoundOf tag Ps op ((r, c), i) < taskRoundOf tag Ps op ((r, c'), j) →
      (schedsNet op n m tag eager sched).Settled mem ((r, c), i) ((r, c'), j))
    (hsubs : SubsInOrder (schedsNet op n m tag eager sched) (taskRoundOf tag Ps op)) :
    (schedsNet op n m tag eager sched).Completes mem fun s => ∀ r, s.mem r = execTasks op Ps mem r := by
  refine completes_of_tasks hgood hsched op eager htag mem hobj ?_ hsubs
  intro A P B P' C hPs r c i e c' j e' he he'
  have hPs' : Ps = (A ++ P :: B) ++ P' :: C := by rw [hPs, append_assoc, cons_append]
  obtain ⟨hr, hc, hget⟩ := entry_of_place hgood hsched hPs he
  obtain ⟨-, hc', hget'⟩ := entry_of_place hgood hsched hPs' he'
  by_cases hcc : c = c'
  · subst hcc
    refine hsame r hr c hc _ _ e e' ?_ hget hget'
    have hi := lt_of_get he
    rw [flatMap_append, flatMap_cons, length_append, length_append]
    omega
  · refine hcross r hr c hc c' hc' hcc _ _ e e' hget hget' ?_
    rw [← place, ← place, taskRoundOf_place op hPs he, taskRoundOf_place op hPs' he', length_append, length_cons]
    omega

end

/-! ## A schedule that starts the others, stage by stage -/

theorem flatMap_of_unique {l : List β} {f : β → List γ} (hnodup : l.Nodup) (hx : x ∈ l)
    (hf : ∀ y ∈ l, y ≠ x → f y = []) : l.flatMap f = f x := by
  obtain ⟨A, B, rfl⟩ := append_of_mem hx
  have hnot := nodup_middle.mp hnodup
  have hA : A.flatMap f = [] := flatMap_eq_nil_iff.mpr fun y hy => hf y (mem_append_left _ hy) fun h =>
    (nodup_cons.mp hnot).1 (h ▸ mem_append_left _ hy)
  have hB : B.flatMap f = [] := flatMap_eq_nil_iff.mpr fun y hy =>
    hf y (mem_append_right _ (mem_cons_of_mem _ hy)) fun h =>
      (nodup_cons.mp hnot).1 (h ▸ mem_append_right _ hy)
  rw [flatMap_append, flatMap_cons, hA, hB, nil_append, append_nil]

/-- How schedule `0` of a rank runs the other schedules `1 … m-1`: behind local entries of its own it starts them in
stages. A schedule belongs to one stage, and a rank may start the schedules of a stage in an order of its own. -/
structure Stages (n m : Nat) where
  /-- what schedule `0` does itself -/
  first : SchedRound
  /-- how many stages there are -/
  count : Nat
  /-- the stage of a schedule -/
  stage : Nat → Nat
  /-- the schedules of a stage -/
  group : Nat → List Nat
  /-- the schedules of a stage as a rank starts them -/
  order : Nat → Nat → List Nat
  /-- whether there is a barrier behind a stage -/
  fence : Nat → Bool
  /-- the rounds of a schedule -/
  rounds : Nat → List SchedRound
  first_roomy : first.IsRoomy n
  first_local : ∀ r, ∀ e ∈ first r, e.kind.isLocal = true
  mem_group : ∀ k < count, ∀ c, c ∈ group k ↔ 0 < c ∧ c < m ∧ stage c = k
  nodup_group : ∀ k < count, (group k).Nodup
  stage_lt : ∀ c, 0 < c → c < m → stage c < count
  order_perm : ∀ r k, (order r k).Perm (group k)
  small : ∀ k, (group k).length ≤ maxFlowCredits
  rounds_roomy : ∀ c, ∀ R ∈ rounds c, R.IsRoomy n
  pos : 0 < m

namespace Stages

variable {n m : Nat} (S : Stages n m)

def starts (r k : Nat) : List SchedEntry := entriesOf (S.fence k) ((S.order r k).map .subsched)

/-- The entries that start a stage, at the ranks. -/
def startRound (k : Nat) : SchedRound := fun r => if r < n then S.starts r k else []

/-- The rounds of a stage with their phases: the schedules of the stage, and the entries that start them. -/
def phased (k : Nat) : List (Nat × TaskRound) :=
  ((S.group k).flatMap fun c => (S.rounds c).map fun R => (2 * k + 1, .column c R)) ++
    [(2 * k + 2, .subs 0 (S.startRound k))]

def phases : List (Nat × TaskRound) := (0, .column 0 S.first) :: (range S.count).flatMap S.phased

def tasks : List TaskRound := S.phases.map Prod.snd

theorem mem_phases {x : Nat × TaskRound} : x ∈ S.phases ↔ x = (0, .column 0 S.first) ∨ ∃ k < S.count,
    (∃ c ∈ S.group k, ∃ R ∈ S.rounds c, x = (2 * k + 1, .column c R)) ∨ x = (2 * k + 2, .subs 0 (S.startRound k)) := by
  simp only [phases, phased, mem_cons, mem_flatMap, mem_range, mem_append, mem_map, eq_comm,
    not_mem_nil, or_false]

theorem phases_sorted : S.phases.Pairwise fun a b => a.1 ≤ b.1 ∧ (a.1 = b.1 → a.1 % 2 = 1) := by
  have hmem : ∀ {k x}, x ∈ S.phased k → x.1 = 2 * k + 1 ∨ x.1 = 2 * k + 2 := by
    intro k x hx
    rcases mem_append.mp hx with hx | hx
    · obtain ⟨c, -, hx⟩ := mem_flatMap.mp hx
      obtain ⟨R, -, rfl⟩ := mem_map.mp hx
      exact .inl rfl
    · rw [mem_singleton.mp hx]
      exact .inr rfl
  refine pairwise_cons.mpr ⟨fun x hx => ?_, pairwise_flatMap.mpr ⟨fun k _ => ?_, ?_⟩⟩
  · obtain ⟨k, -, hx⟩ := mem_flatMap.mp hx
    have := hmem hx
    exact ⟨Nat.zero_le _, fun h => by omega⟩
  · refine pairwise_append.mpr ⟨?_, pairwise_singleton .., fun x hx y hy => ?_⟩
    · refine pairwise_of_forall_mem_list fun x hx y hy => ?_
      obtain ⟨c, -, hx⟩ := mem_flatMap.mp hx
      obtain ⟨R, -, rfl⟩ := mem_map.mp hx
      obtain ⟨c', -, hy⟩ := mem_flatMap.mp hy
      obtain ⟨R', -, rfl⟩ := mem_map.mp hy
      exact ⟨le_rfl, fun _ => by omega⟩
    · obtain ⟨c, -, hx⟩ := mem_flatMap.mp hx
      obtain ⟨R, -, rfl⟩ := mem_map.mp hx
      rw [mem_singleton.mp hy]
      exact ⟨Nat.le_succ _, fun h => absurd h ((Nat.lt_succ_self _).ne)⟩
  · refine pairwise_lt_range.imp fun {k k'} hlt x hx y hy => ?_
    have := hmem hx
    have := hmem hy
    omega

variable {r : Nat}

theorem mem_starts {k : Nat} (h : e ∈ S.starts r k) : ∃ c b, e = ⟨.subsched c, b⟩ ∧ c ∈ S.group k := by
  obtain ⟨kind, b⟩ := e
  obtain ⟨c, hc, rfl⟩ := mem_map.mp (mem_entriesOf h)
  exact ⟨c, b, rfl, (S.order_perm r k).mem_iff.mp hc⟩

theorem tasks_good : ∀ P ∈ S.tasks, P.IsGood n m := by
  intro P hP
  obtain ⟨x, hx, rfl⟩ := mem_map.mp hP
  rcases S.mem_phases.mp hx with rfl | ⟨k, hk, ⟨c, hc, R, hR, rfl⟩ | rfl⟩
  · exact ⟨S.pos, S.first_roomy⟩
  · exact ⟨((S.mem_group k hk c).mp hc).2.1, S.rounds_roomy c R hR⟩
  · refine ⟨S.pos, fun r hr => if_neg hr.not_gt, fun r => ?_⟩
    show (∀ e ∈ (if r < n then S.starts r k else []), _) ∧ (∀ e ∈ (if r < n then S.starts r k else []).dropLast, _) ∧
      (if r < n then S.starts r k else []).length ≤ _
    split
    · refine ⟨fun e he => ?_, barrier_dropLast_entriesOf _ _, ?_⟩
      · obtain ⟨c, b, rfl, -⟩ := S.mem_starts he
        exact ⟨c, rfl⟩
      · rw [starts, ← length_map (f := SchedEntry.kind), map_kind_entriesOf, length_map,
          (S.order_perm r k).length_eq]
        exact S.small k
    · exact ⟨forall_mem_nil _, forall_mem_nil _, Nat.zero_le _⟩

theorem tasks_entries_zero (hr : r < n) :
    S.tasks.flatMap (·.entries r 0) = S.first r ++ (range S.count).flatMap (S.starts r) := by
  have hstage : ∀ k ∈ range S.count, ((S.phased k).map Prod.snd).flatMap (·.entries r 0) = S.starts r k := by
    intro k hk
    have hk := mem_range.mp hk
    rw [phased, map_append, flatMap_append]
    have hcols : (((S.group k).flatMap fun c => (S.rounds c).map fun R => (2 * k + 1, column c R)).map
        Prod.snd).flatMap (·.entries r 0) = [] := by
      refine flatMap_eq_nil_iff.mpr fun P hP => ?_
      obtain ⟨x, hx, rfl⟩ := mem_map.mp hP
      obtain ⟨c, hc, hx⟩ := mem_flatMap.mp hx
      obtain ⟨R, -, rfl⟩ := mem_map.mp hx
      exact if_neg (Nat.ne_of_lt ((S.mem_group k hk c).mp hc).1)
    rw [hcols]
    show (if r < n then S.starts r k else []) ++ [] = _
    rw [if_pos hr, append_nil]
  rw [tasks, phases, map_cons, flatMap_cons, map_flatMap, flatMap_assoc, flatMap_congr hstage]
  rfl

theorem tasks_entries (hc : 0 < c) (hm : c < m) : S.tasks.flatMap (·.entries r c) = (S.rounds c).flatMap (· r) := by
  have hcol : ∀ k c', ((S.rounds c').map fun R => (2 * k + 1, column c' R)).flatMap
      (fun x => x.2.entries r c) = if c = c' then (S.rounds c').flatMap (· r) else [] := by
    intro k c'
    rw [flatMap_map]
    show (S.rounds c').flatMap (fun R => if c = c' then R r else []) = _
    split
    · rfl
    · exact flatMap_eq_nil_iff.mpr fun _ _ => rfl
  have hstage : ∀ k, (S.phased k).flatMap (fun x => x.2.entries r c) =
      (S.group k).flatMap fun c' => if c = c' then (S.rounds c').flatMap (· r) else [] := by
    intro k
    rw [phased, flatMap_append, flatMap_assoc, flatMap_congr fun c' _ => hcol k c']
    exact (congrArg _ ((append_nil _).trans (if_neg hc.ne'))).trans (append_nil _)
  have hlt := S.stage_lt c hc hm
  have hmem : c ∈ S.group (S.stage c) := (S.mem_group _ hlt c).mpr ⟨hc, hm, rfl⟩
  calc S.tasks.flatMap (·.entries r c)
      = (range S.count).flatMap fun k => (S.phased k).flatMap fun x => x.2.entries r c := by
        rw [tasks, phases, map_cons, flatMap_cons, flatMap_map, flatMap_assoc]
        exact congrArg (· ++ _) (if_neg hc.ne')
    _ = (S.phased (S.stage c)).flatMap fun x => x.2.entries r c := by
        refine flatMap_of_unique nodup_range (mem_range.mpr hlt) fun k hk hne => ?_
        rw [hstage k]
        refine flatMap_eq_nil_iff.mpr fun c' hc' => if_neg fun h => hne ?_
        exact h ▸ ((S.mem_group k (mem_range.mp hk) c').mp hc').2.2.symm
    _ = (S.rounds c).flatMap (· r) := by
        rw [hstage, flatMap_of_unique (S.nodup_group _ hlt) hmem fun c' _ hne => if_neg fun h => hne h.symm, if_pos rfl]

theorem exec_tasks (op : α → α → α) (σ : Nat → Mem α) : execTasks op S.tasks σ =
    ((range S.count).flatMap S.group).foldl (fun σ c => execRounds op (S.rounds c) σ) (S.first.exec op σ) := by
  have hgroup : ∀ (k : Nat) (cs : List Nat) (σ : Nat → Mem α),
      execTasks op ((cs.flatMap fun c => (S.rounds c).map fun R => (2 * k + 1, column c R)).map Prod.snd) σ =
        cs.foldl (fun σ c => execRounds op (S.rounds c) σ) σ := by
    intro k cs
    induction cs with
    | nil => exact fun σ => rfl
    | cons c cs ih =>
      intro σ
      have hmap : ((S.rounds c).map fun R => (2 * k + 1, column c R)).map Prod.snd =
          (S.rounds c).map (.column c) := map_map
      rw [flatMap_cons, map_append, execTasks_append, ih, hmap, execTasks_column, foldl_cons]
  have hstage : ∀ (k : Nat) (σ : Nat → Mem α), execTasks op ((S.phased k).map Prod.snd) σ =
      (S.group k).foldl (fun σ c => execRounds op (S.rounds c) σ) σ := by
    intro k σ
    rw [phased, map_append, execTasks_append, hgroup]
    rfl
  have hall : ∀ (ks : List Nat) (σ : Nat → Mem α), execTasks op ((ks.flatMap S.phased).map Prod.snd) σ =
      (ks.flatMap S.group).foldl (fun σ c => execRounds op (S.rounds c) σ) σ := by
    intro ks
    induction ks with
    | nil => exact fun σ => rfl
    | cons k ks ih =>
      intro σ
      rw [flatMap_cons, map_append, execTasks_append, hstage, ih, flatMap_cons, foldl_append]
  exact hall _ _

theorem nodup_groups : ((range S.count).flatMap S.group).Nodup := by
  refine nodup_flatMap.mpr ⟨fun k hk => S.nodup_group k (mem_range.mp hk), ?_⟩
  refine nodup_range.imp_of_mem fun {k k'} hk hk' hne => ?_
  intro c hc hc'
  refine hne ?_
  rw [← ((S.mem_group k (mem_range.mp hk) c).mp hc).2.2, ((S.mem_group k' (mem_range.mp hk') c).mp hc').2.2]

theorem mem_groups (hpos : 0 < c) (hc : c < m) : c ∈ (range S.count).flatMap S.group :=
  mem_flatMap.mpr ⟨S.stage c, mem_range.mpr (S.stage_lt c hpos hc),
    (S.mem_group _ (S.stage_lt c hpos hc) c).mpr ⟨hpos, hc, rfl⟩⟩

theorem lt_of_mem_groups (h : c ∈ (range S.count).flatMap S.group) : 0 < c ∧ c < m := by
  obtain ⟨k, hk, hc⟩ := mem_flatMap.mp h
  obtain ⟨hpos, hm, -⟩ := (S.mem_group k (mem_range.mp hk) c).mp hc
  exact ⟨hpos, hm⟩

theorem mem_phase (h : (a, P) ∈ S.phases) (he : e ∈ P.entries r c) :
    c = 0 ∧ a = 0 ∧ e.kind.isLocal = true ∨ 0 < c ∧ a = 2 * S.stage c + 1 ∨
      c = 0 ∧ ∃ c' b, e = ⟨.subsched c', b⟩ ∧ a = 2 * S.stage c' + 2 := by
  rcases S.mem_phases.mp h with h | ⟨k, hk, ⟨c', hc', R, -, h⟩ | h⟩ <;> cases h <;>
    simp only [entries, mem_ite_nil_right] at he
  · exact .inl ⟨he.1, rfl, S.first_local r e he.2⟩
  · obtain ⟨hpos, -, rfl⟩ := (S.mem_group k hk c').mp hc'
    exact .inr (.inl ⟨he.1 ▸ hpos, by rw [he.1]⟩)
  · simp only [startRound, mem_ite_nil_right] at he
    obtain ⟨c', b, rfl, hc'⟩ := S.mem_starts he.2.2
    exact .inr (.inr ⟨he.1, c', b, rfl, by rw [((S.mem_group k hk c').mp hc').2.2]⟩)

theorem phase_of_local (h : (a, P) ∈ S.phases) (he : e ∈ P.entries r 0) (hlocal : e.kind.isLocal = true) : a = 0 := by
  rcases S.mem_phase h he with ⟨-, ha, -⟩ | ⟨h0, -⟩ | ⟨-, c, b, rfl, -⟩
  · exact ha
  · cases h0
  · cases hlocal

theorem phase_of_start (h : (a, P) ∈ S.phases) (he : ⟨.subsched c, b⟩ ∈ P.entries r 0) : a = 2 * S.stage c + 2 := by
  rcases S.mem_phase h he with ⟨-, -, hl⟩ | ⟨h0, -⟩ | ⟨-, c', b', heq, ha⟩
  · cases hl
  · cases h0
  · cases heq
    exact ha

theorem phase_of_child (h : (a, P) ∈ S.phases) (hc : 0 < c) (he : e ∈ P.entries r c) : a = 2 * S.stage c + 1 := by
  rcases S.mem_phase h he with ⟨h0, -⟩ | ⟨-, ha⟩ | ⟨h0, -⟩
  · omega
  · exact ha
  · omega

/-- The schedules of the ranks are those of the stages. -/
structure Builds (sched : Nat → Nat → Sched) : Prop where
  main : ∀ r < n, (sched r 0).entries = S.first r ++ (range S.count).flatMap (S.starts r)
  child : ∀ r < n, ∀ c, 0 < c → c < m → (sched r c).entries = (S.rounds c).flatMap (· r)

variable {S} {sched : Nat → Nat → Sched}

theorem Builds.entries (h : S.Builds sched) : ∀ r < n, ∀ c < m, (sched r c).entries = S.tasks.flatMap (·.entries r c) := by
  intro r hr c hc
  rcases Nat.eq_zero_or_pos c with rfl | hpos
  · rw [h.main r hr, S.tasks_entries_zero hr]
  · rw [h.child r hr c hpos hc, S.tasks_entries hpos hc]

theorem Builds.main_cases (h : S.Builds sched) (hr : r < n) (he : (sched r 0).entries[i]? = some e) :
    (e.kind.isLocal = true ∧ i < (S.first r).length) ∨
      ((S.first r).length ≤ i ∧ ∃ c b, e = ⟨.subsched c, b⟩ ∧ 0 < c ∧ c < m) := by
  rw [h.main r hr] at he
  rcases lt_or_ge i (S.first r).length with hlt | hge
  · rw [getElem?_append_left hlt] at he
    exact .inl ⟨S.first_local r e (mem_of_getElem? he), hlt⟩
  · rw [getElem?_append_right hge] at he
    obtain ⟨k, hk, hmem⟩ := mem_flatMap.mp (mem_of_getElem? he)
    obtain ⟨c, b, rfl, hc⟩ := S.mem_starts hmem
    obtain ⟨hpos, hm, -⟩ := (S.mem_group k (mem_range.mp hk) c).mp hc
    exact .inr ⟨hge, c, b, rfl, hpos, hm⟩

theorem Builds.child_plain (h : S.Builds sched) (hr : r < n) (hpos : 0 < c) (hc : c < m) :
    (sched r c).entries[i]? ≠ some ⟨.subsched j, b⟩ := by
  intro he
  rw [h.child r hr c hpos hc] at he
  obtain ⟨R, hR, hmem⟩ := mem_flatMap.mp (mem_of_getElem? he)
  obtain ⟨dest, orig, g⟩ := S.rounds_roomy c R hR
  exact (g.plain r _ hmem).2 j rfl

theorem Builds.exists_start (h : S.Builds sched) (hr : r < n) (hpos : 0 < c) (hc : c < m) :
    ∃ (i : Nat) (b : Bool), (sched r 0).entries[i]? = some ⟨.subsched c, b⟩ := by
  have hlt := S.stage_lt c hpos hc
  have hmem : c ∈ S.order r (S.stage c) :=
    (S.order_perm r _).mem_iff.mpr ((S.mem_group _ hlt c).mpr ⟨hpos, hc, rfl⟩)
  have hkind : .subsched c ∈ (S.starts r (S.stage c)).map SchedEntry.kind := by
    rw [starts, map_kind_entriesOf]
    exact mem_map_of_mem hmem
  obtain ⟨⟨kind, b⟩, he, rfl⟩ := mem_map.mp hkind
  have hmain : (⟨.subsched c, b⟩ : SchedEntry) ∈ (sched r 0).entries := by
    rw [h.main r hr]
    exact mem_append_right _ (mem_flatMap.mpr ⟨_, mem_range.mpr hlt, he⟩)
  obtain ⟨i, hi, heq⟩ := mem_iff_getElem.mp hmain
  exact ⟨i, b, by rw [getElem?_eq_getElem hi, heq]⟩

section

variable (h : S.Builds sched) {tag : Nat → Nat} (op : α → α → α) (eager : Nat × Nat → Nat → Bool)

include h

theorem Builds.op_sub (hp : (schedsNet op n m tag eager sched).op p = some (.sub t)) :
    p.1.1 < n ∧ p.1.2 = 0 ∧ t.1 = p.1.1 ∧ 0 < t.2 ∧
      t.2 < m ∧ ∃ b, (sched p.1.1 0).entries[p.2]? = some ⟨.subsched t.2, b⟩ := by
  obtain ⟨hr, hc, ht, b, he⟩ := (op_sub_iff op eager).mp hp
  rcases Nat.eq_zero_or_pos p.1.2 with h0 | hpos
  · rw [h0] at he
    rcases h.main_cases hr he with ⟨hl, -⟩ | ⟨-, c, b', heq, hpos, hm⟩
    · cases hl
    · injection heq with heq
      injection heq with heq
      exact ⟨hr, h0, ht, heq ▸ hpos, heq ▸ hm, b, he⟩
  · exact absurd he (h.child_plain hr hpos hc)

theorem Builds.under {u : Nat × Nat} (hu : (schedsNet op n m tag eager sched).Under t u) (ht : 0 < t.2) : u = t := by
  cases hu with
  | refl => rfl
  | sub hop _ => exact absurd (h.op_sub op eager hop).2.1 ht.ne'

theorem Builds.child_lt_start (hr : r < n) (hpos : 0 < c) (hc : c < m)
    (hi : (sched r 0).entries[i]? = some ⟨.subsched c, b⟩) (hj : (sched r c).entries[j]? = some e) :
    taskRoundOf tag S.tasks op ((r, c), j) < taskRoundOf tag S.tasks op ((r, 0), i) := by
  refine taskRoundOf_lt_of_phase S.tasks_good h.entries op rfl (S.phases_sorted.imp fun h => h.1) hr hc hr S.pos hj hi ?_
  intro a P hP he a' P' hP' he'
  rw [S.phase_of_child hP hpos he, S.phase_of_start hP' he']
  omega

theorem Builds.start_lt_child (hr : r < n) (hpos : 0 < c') (hc : c' < m)
    (hi : (sched r 0).entries[i]? = some ⟨.subsched c, b⟩) (hj : (sched r c').entries[j]? = some e)
    (hlt : S.stage c < S.stage c') : taskRoundOf tag S.tasks op ((r, 0), i) < taskRoundOf tag S.tasks op ((r, c'), j) := by
  refine taskRoundOf_lt_of_phase S.tasks_good h.entries op rfl (S.phases_sorted.imp fun h => h.1) hr S.pos hr hc hi hj ?_
  intro a P hP he a' P' hP' he'
  rw [S.phase_of_start hP he, S.phase_of_child hP' hpos he']
  omega

theorem Builds.stage_lt_of_round_lt {b' : Bool} (hr : r < n)
    (hi : (sched r 0).entries[i]? = some ⟨.subsched c, b⟩) (hi' : (sched r 0).entries[i']? = some ⟨.subsched c', b'⟩)
    (hlt : taskRoundOf tag S.tasks op ((r, 0), i) < taskRoundOf tag S.tasks op ((r, 0), i')) : S.stage c < S.stage c' := by
  obtain ⟨A, a, P, B, hLA, hmem, hround⟩ := exists_phase_of_entry tag S.tasks_good h.entries op rfl hr S.pos hi
  obtain ⟨A', a', P', B', hLA', hmem', hround'⟩ := exists_phase_of_entry tag S.tasks_good h.entries op rfl hr S.pos hi'
  rw [hround, hround'] at hlt
  obtain ⟨D, rfl⟩ := exists_between (hLA.symm.trans hLA') hlt
  have hsorted := S.phases_sorted
  rw [hLA', append_assoc, cons_append] at hsorted
  have hle := (pairwise_cons.mp (pairwise_append.mp hsorted).2.1).1 (a', P')
    (mem_append_right _ mem_cons_self)
  have ha := S.phase_of_start (hLA ▸ mem_append_right _ mem_cons_self) hmem
  have ha' := S.phase_of_start (hLA' ▸ mem_append_right _ mem_cons_self) hmem'
  omega

theorem Builds.dep_of_local (hr : r < n) (hpos : 0 < c) (hc : c < m)
    (hi : (sched r 0).entries[i]? = some e) (hlocal : e.kind.isLocal = true) :
    (schedsNet op n m tag eager sched).Dep ((r, 0), i) ((r, c), j) := by
  obtain ⟨k, b, hk⟩ := h.exists_start hr hpos hc
  refine .wake (p := ((r, 0), k)) ((op_sub_iff op eager).mpr ⟨hr, S.pos, rfl, b, hk⟩) fun q hq => ?_
  obtain ⟨-, h0, hrank, -, -, b', hq⟩ := h.op_sub op eager hq
  obtain ⟨⟨r', c'⟩, k'⟩ := q
  obtain rfl : r = r' := hrank
  obtain rfl : c' = 0 := h0
  obtain ⟨f, hf⟩ := SchedEntry.exists_act hlocal op r (tag 0)
  refine .act ((schedsNet_op op eager hr S.pos hi).trans (congrArg some hf)) ?_
  rcases h.main_cases hr hi with ⟨-, hlt⟩ | ⟨-, c'', b'', rfl, -⟩
  · rcases h.main_cases hr hq with ⟨hl, -⟩ | ⟨hge, -⟩
    · cases hl
    · exact hlt.trans_le hge
  · cases hlocal

/-- **Schedules that are started stage by stage complete and compute their rounds**, if none of the started ones races
with itself and they are apart from each other. -/
theorem Builds.completes (htag : TagsDiffer m tag) (mem : Nat → Mem α)
    (hsame : ∀ r < n, ∀ c, 0 < c → c < m → ∀ i j e e', i < j → (sched r c).entries[i]? = some e →
      (sched r c).entries[j]? = some e' →
      (schedsNet op n m tag eager sched).Settled mem ((r, c), i) ((r, c), j))
    (hcross : ∀ r < n, ∀ c c', 0 < c → c < m → 0 < c' → c' < m → c ≠ c' → ∀ e ∈ (sched r c).entries,
      ∀ e' ∈ (sched r c').entries, e.kind.Apart e'.kind) :
    (schedsNet op n m tag eager sched).Completes mem fun s => ∀ r, s.mem r = execTasks op S.tasks mem r := by
  refine completes_of_entries S.tasks_good h.entries op eager htag mem ?_ ?_ ?_ ⟨?_, ?_, ?_⟩
  · -- there are no meetings
    refine pairwise_of_forall_mem_list fun P hP P' _ r k hmeets => absurd hmeets ?_
    obtain ⟨x, hx, rfl⟩ := mem_map.mp hP
    rintro ⟨cols, obj, hsync, -⟩
    rcases S.mem_phases.mp hx with rfl | ⟨k, -, ⟨c, -, R, -, rfl⟩ | rfl⟩ <;> cases hsync
  · intro r hr c hc i j e e' hij he he'
    rcases Nat.eq_zero_or_pos c with rfl | hpos
    · rcases h.main_cases hr he with ⟨hlocal, -⟩ | ⟨-, c, b, rfl, -⟩
      · obtain ⟨f, hf⟩ := SchedEntry.exists_act hlocal op r (tag 0)
        exact .inl (.act ((schedsNet_op op eager hr hc he).trans (congrArg some hf)) hij)
      · exact .inr (.inl (schedsNet_indep op eager hr hc hc he he' (apart_subsched c _)))
    · exact hsame r hr c hpos hc i j e e' hij he he'
  · intro r hr c hc c' hc' hne i j e e' he he' hlt
    rcases Nat.eq_zero_or_pos c with rfl | hpos
    · have hpos' : 0 < c' := Nat.pos_of_ne_zero fun h => hne h.symm
      rcases h.main_cases hr he with ⟨hlocal, -⟩ | ⟨-, c, b, rfl, -⟩
      · exact .inl (h.dep_of_local op eager hr hpos' hc' he hlocal)
      · exact .inr (.inl (schedsNet_indep op eager hr hc hc' he he' (apart_subsched c _)))
    rcases Nat.eq_zero_or_pos c' with rfl | hpos'
    · rcases h.main_cases hr he' with ⟨hlocal, -⟩ | ⟨-, c', b, rfl, -⟩
      · -- what schedule `0` does itself comes first
        have hlt' : taskRoundOf tag S.tasks op ((r, 0), j) < taskRoundOf tag S.tasks op ((r, c), i) := by
          refine taskRoundOf_lt_of_phase S.tasks_good h.entries op rfl (S.phases_sorted.imp fun h => h.1) hr hc' hr hc he'
            he fun a P hP hmem a' P' hP' hmem' => ?_
          rw [S.phase_of_local hP hmem hlocal, S.phase_of_child hP' hpos hmem']
          omega
        exact absurd hlt (Nat.lt_asymm hlt')
      · exact .inr (.inl (schedsNet_indep op eager hr hc hc' he he' (apart_subsched c' _).symm))
    · refine .inr (.inl (schedsNet_indep op eager hr hc hc' he he' ?_))
      exact hcross r hr c c' hpos hc hpos' hc' hne e (mem_of_getElem? he) e' (mem_of_getElem? he')
  · intro p t hp j hj
    obtain ⟨hr, h0, hrank, hpos, hm, b, hi⟩ := h.op_sub op eager hp
    obtain ⟨⟨r, c⟩, i⟩ := p
    obtain ⟨r', c'⟩ := t
    obtain rfl : c = 0 := h0
    obtain rfl : r' = r := hrank
    obtain ⟨-, -, e, he⟩ := exists_entry (x := ((r', c'), j)) op eager hj
    exact h.child_lt_start op hr hpos hm hi he
  · intro p t hp y hy hlen
    obtain ⟨hr, h0, hrank, hpos, hm, b, hi⟩ := h.op_sub op eager hp
    obtain ⟨y, j⟩ := y
    obtain rfl : y = t := h.under op eager hy hpos
    refine ready_of_gap S.tasks_good h.entries op eager htag (Net.lt_length_of_op hp) fun k hk hact hlt => ?_
    obtain ⟨⟨r, c⟩, i⟩ := p
    obtain ⟨r', c'⟩ := y
    obtain rfl : c = 0 := h0
    obtain rfl : r' = r := hrank
    obtain ⟨-, -, e, he⟩ := exists_entry (x := ((r', c'), j)) op eager hlen
    obtain ⟨-, -, e', he'⟩ := exists_entry (x := ((r', 0), k)) op eager (hk.trans (Net.lt_length_of_op hp))
    rcases h.main_cases hr he' with ⟨hlocal, -⟩ | ⟨-, c, b', rfl, -⟩
    · obtain ⟨f, hf⟩ := SchedEntry.exists_act hlocal op r' (tag 0)
      exact absurd ⟨f, (schedsNet_op op eager hr S.pos he').trans (congrArg some hf)⟩ hact
    · exact h.start_lt_child op hr hpos hm he' he (h.stage_lt_of_round_lt op hr he' hi hlt)
  · refine ⟨fun t => if t.2 = 0 then 0 else 1, fun p t hp => ?_⟩
    obtain ⟨-, h0, -, hpos, -⟩ := h.op_sub op eager hp
    dsimp only
    rw [if_pos h0, if_neg hpos.ne']
    exact Nat.zero_lt_one

end

end Stages

end OneCcl
