import OneCcl.Sched.Sched

/-!
# Schedules in rounds

The collectives in this development are written in rounds in which a rank sends at most one message
and receives at most one. `SchedRound.exec` is what such a round means, all ranks at once; `Good` lists
what makes the meaning true of the running schedules: both sides agree on who sends how much to whom,
the entries of a rank touch different memory, and a rank waits only at the end of the round.

`completes_of_rounds` is the bridge used by every collective: schedules that consist of good rounds
complete, whatever the order in which messages complete, and leave what the rounds compute. The same
rounds show that every send has its receive (`messagesMatch_of_rounds`).
-/

namespace OneCcl

open Async List EntryKind

variable {α : Type}
variable {n tag j : Nat} {ι β : Type} {e : SchedEntry} {p : Nat × Nat} {b : Bool} {l : List β} {a : BufSrc × Nat}
  {k : EntryKind} {x : Swap} {swap : Nat → Option Swap} {inBuf buf' : CclBuffer} {Rs : List SchedRound}
  {build : Nat → Option Sched} {op : α → α → α} {sched : Nat → Sched}

/-- What an entry does when it is executed in one go, its message given. -/
def EntryKind.run (op : α → α → α) (inbox : Nat → List α) : EntryKind → Mem α → Mem α
  | .recv buf _ src => store buf (inbox src)
  | .recvReduce inoutBuf cnt src commBuf result => fun m =>
    compReduce op (reduceBufs inoutBuf commBuf result).1 cnt (reduceBufs inoutBuf commBuf result).2
      (store commBuf (inbox src) m)
  | .recvCopy recvBuf copyBuf cnt src => fun m => compCopy recvBuf copyBuf cnt (store recvBuf (inbox src) m)
  | .copy inBuf outBuf cnt => compCopy inBuf outBuf cnt
  | .reduceLocal inBuf cnt inoutBuf => compReduce op inBuf cnt inoutBuf
  | _ => id

def EntryKind.message : EntryKind → Mem α → Option (List α)
  | .send buf cnt _, m => some (load buf cnt m)
  | _, _ => none

/-- Nothing of a list of entries is left open at its end: the last is a barrier, or none is a message. -/
def ClosedEntries (l : List SchedEntry) : Prop :=
  (∃ e ∈ l.getLast?, e.barrier = true) ∨ ∀ e ∈ l, e.kind.isLocal = true

abbrev SchedRound : Type := Nat → List SchedEntry

namespace SchedRound

/-- What a rank sends to another in a round. -/
def inbox (R : SchedRound) (σ : Nat → Mem α) (s d : Nat) : List α :=
  (((R s).find? fun e => e.kind.sentTo.any (·.1 = d)).bind fun e => e.kind.message (σ s)).getD []

/-- One round, all ranks at once, every message read off the memories the round begins with. -/
def exec (op : α → α → α) (R : SchedRound) (σ : Nat → Mem α) (r : Nat) : Mem α :=
  applyAll (fun e => e.kind.run op fun s => R.inbox σ s r) (R r) (σ r)

/-- A round in which rank `r` sends as `dest r` says and receives as `orig r` says: to or from whom, and
how much. -/
structure Shaped (R : SchedRound) (n : Nat) (dest orig : Nat → Option (Nat × Nat)) : Prop where
  idle : ∀ r, n ≤ r → R r = []
  sent : ∀ r, (R r).filterMap (·.kind.sentTo) = (dest r).toList
  received : ∀ r, (R r).filterMap (·.kind.receivedFrom) = (orig r).toList
  plain : ∀ r, ∀ e ∈ R r, (∀ k, e.kind ≠ .sync k) ∧ ∀ i, e.kind ≠ .subsched i
  apart : ∀ r, (R r).Pairwise fun e e' => e.kind.Apart e'.kind
  wait : ∀ r, (∀ e ∈ (R r).dropLast, e.barrier = false) ∨ ∀ e ∈ R r, e.kind.isLocal = true
  small : ∀ r, (R r).length ≤ maxFlowCredits

/-- A round in which every receive is as long as the message it gets. -/
structure Good (R : SchedRound) (n : Nat) (dest orig : Nat → Option (Nat × Nat)) : Prop
    extends R.Shaped n dest orig where
  agree : ∀ s d c, dest s = some (d, c) ↔ orig d = some (s, c)

/-- A round in which a receive may be posted longer than the message it gets. -/
structure Roomy (R : SchedRound) (n : Nat) (dest orig : Nat → Option (Nat × Nat)) : Prop
    extends R.Shaped n dest orig where
  paired : ∀ s d, (∃ c, dest s = some (d, c)) ↔ ∃ c, orig d = some (s, c)
  room : ∀ s d c c', dest s = some (d, c) → orig d = some (s, c') → c ≤ c'

theorem Good.roomy {R : SchedRound} {dest orig : Nat → Option (Nat × Nat)} (g : R.Good n dest orig) :
    R.Roomy n dest orig where
  toShaped := g.toShaped
  paired s d := exists_congr (g.agree s d)
  room s d c c' hs hd := by
    rw [(g.agree s d c).mp hs] at hd
    exact Nat.le_of_eq (Prod.mk.inj (Option.some.inj hd)).2

/-- Nothing of the round is left open at its end. -/
def Closed (R : SchedRound) : Prop := ∀ r, ClosedEntries (R r)

def toRound (op : α → α → α) (tag : Nat) (R : SchedRound) : Round Nat Chan Nat (Mem α) (List α) :=
  fun r => (R r).map (·.toEntry op r tag id)

/-- The round as a round of a net in which rank `r` runs it in the task `loc r`. -/
def toRoundAt {ι : Type} [DecidableEq ι] (rank : ι → Nat) (loc : Nat → ι) (op : α → α → α) (tag : Nat)
    (child : Nat → Nat → ι) (R : SchedRound) : Round ι Chan Nat (Mem α) (List α) :=
  fun t => if t = loc (rank t) then (R (rank t)).map (·.toEntry op (rank t) tag (child (rank t))) else []

/-- The tasks `loc r` are one of each rank's, and have the channels with the tag. -/
structure Column {ι : Type} (T : Layout ι Nat Chan) (n : Nat) (loc : Nat → ι) (tag : Nat) : Prop where
  rank : ∀ r, T.rank (loc r) = r
  src : ∀ s d, T.src ⟨s, d, tag⟩ = loc s
  dst : ∀ s d, T.dst ⟨s, d, tag⟩ = loc d
  team : ∀ r < n, loc r ∈ T.team r

end SchedRound

open SchedRound

def execRounds (op : α → α → α) : List SchedRound → (Nat → Mem α) → Nat → Mem α
  | [], σ => σ
  | R :: Rs, σ => execRounds op Rs (R.exec op σ)

theorem execRounds_append (op : α → α → α) (A B : List SchedRound) (σ : Nat → Mem α) :
    execRounds op (A ++ B) σ = execRounds op B (execRounds op A σ) := by
  induction A generalizing σ with
  | nil => rfl
  | cons R A ih => exact ih _

theorem execRounds_flatMap_congr (op : α → α → α) {l : List ι} {f g : ι → List SchedRound}
    (h : ∀ t ∈ l, ∀ σ, execRounds op (f t) σ = execRounds op (g t) σ) (σ : Nat → Mem α) :
    execRounds op (l.flatMap f) σ = execRounds op (l.flatMap g) σ := by
  induction l generalizing σ with
  | nil => rfl
  | cons t l ih =>
    rw [flatMap_cons, flatMap_cons, execRounds_append, execRounds_append, h t mem_cons_self,
      ih fun t' h' => h t' (mem_cons_of_mem _ h')]

/-! ## Counting messages -/

theorem length_filter_any {γ : Type} (f : β → Option γ) (q : γ → Bool) (l : List β) :
    (l.filter fun e => (f e).any q).length = ((l.filterMap f).filter q).length := by
  induction l with
  | nil => rfl
  | cons e l ih =>
    cases hf : f e with
    | none =>
      rw [filterMap_cons_none hf, filter_cons_of_neg (by rw [hf]; exact Bool.noConfusion), ih]
    | some y =>
      rw [filterMap_cons_some hf, filter_cons, filter_cons, hf]
      show (if q y = true then _ else _ : List β).length = _
      split
      · rw [length_cons, length_cons, ih]
      · exact ih

/-- Picking what belongs to one rank, entry by entry or from all that is picked. -/
theorem filterMap_bind_fst (f : β → Option (Nat × Nat)) (l : List β) (d : Nat) :
    l.filterMap (fun e => (f e).bind fun p => if p.1 = d then some p.2 else none) =
      ((l.filterMap f).filter (·.1 = d)).map (·.2) := by
  induction l with
  | nil => rfl
  | cons e l ih =>
    rw [filterMap_cons, filterMap_cons]
    cases hf : f e with
    | none => exact ih
    | some p =>
      by_cases hp : p.1 = d
      · simp only [Option.bind_some, hp, if_true, filter_cons, decide_true, map_cons]
        exact congrArg (p.2 :: ·) ih
      · simp only [Option.bind_some, hp, if_false, filter_cons, decide_false, Bool.false_eq_true]
        exact ih

theorem sendCnts_eq (l : List SchedEntry) (d : Nat) :
    sendCnts l d = ((l.filterMap (·.kind.sentTo)).filter (·.1 = d)).map (·.2) := filterMap_bind_fst _ l d

theorem recvCnts_eq (l : List SchedEntry) (s : Nat) :
    recvCnts l s = ((l.filterMap (·.kind.receivedFrom)).filter (·.1 = s)).map (·.2) := filterMap_bind_fst _ l s

theorem eq_of_length_le_one (h : l.length ≤ 1) {a b : β} (ha : a ∈ l) (hb : b ∈ l) : a = b := by
  match l, h with
  | [c], _ => rw [mem_singleton.mp ha, mem_singleton.mp hb]

/-! ## The round of the net -/

namespace SchedRound

theorem sendsOn_toEntry (child : Nat → ι) (op : α → α → α) (r tag : Nat) (c : Chan) (e : SchedEntry) (hr : r = c.src) :
    (e.toEntry op r tag child).op.sendsOn c =
      e.kind.sentTo.any fun p => decide (p.1 = c.dst ∧ tag = c.tag) := by
  obtain ⟨kind, b⟩ := e
  obtain ⟨cs, cd, ct⟩ := c
  subst hr
  cases kind with
  | send buf cnt dst =>
    show decide ((⟨r, dst, tag⟩ : Chan) = ⟨r, cd, ct⟩) = decide (dst = cd ∧ tag = ct)
    simp only [Chan.mk.injEq, true_and]
  | _ => rfl

theorem recvsOn_toEntry (child : Nat → ι) (op : α → α → α) (r tag : Nat) (c : Chan) (e : SchedEntry) (hr : r = c.dst) :
    (e.toEntry op r tag child).op.recvsOn c =
      e.kind.receivedFrom.any fun p => decide (p.1 = c.src ∧ tag = c.tag) := by
  obtain ⟨kind, b⟩ := e
  obtain ⟨cs, cd, ct⟩ := c
  subst hr
  have heq : ∀ src, decide ((⟨src, r, tag⟩ : Chan) = ⟨cs, r, ct⟩) = decide (src = cs ∧ tag = ct) := fun src => by
    simp only [Chan.mk.injEq, true_and]
  cases kind with
  | recv _ _ src | recvReduce _ _ src | recvCopy _ _ _ src => exact heq src
  | _ => rfl

theorem sendsOn_comp_toEntry (child : Nat → ι) (op : α → α → α) (s d tag : Nat) :
    ((fun e : Async.Entry ι Chan Nat (Mem α) (List α) => e.op.sendsOn ⟨s, d, tag⟩) ∘
      fun e : SchedEntry => e.toEntry op s tag child) = fun e => e.kind.sentTo.any (·.1 = d) := by
  funext e
  show (e.toEntry op s tag child).op.sendsOn ⟨s, d, tag⟩ = _
  rw [sendsOn_toEntry child op s tag _ e rfl]
  simp only [and_true]

section Column

variable {ι : Type} [DecidableEq ι] {T : Layout ι Nat Chan} {n : Nat} {loc : Nat → ι} {tag : Nat}
  (C : Column T n loc tag) (child : Nat → Nat → ι) (op : α → α → α)

include C

theorem Column.toRoundAt_loc (R : SchedRound) (r : Nat) :
    R.toRoundAt T.rank loc op tag child (loc r) = (R r).map (·.toEntry op r tag (child r)) := by
  unfold toRoundAt
  rw [C.rank, if_pos rfl]

variable {R : SchedRound}

omit C in
theorem toRoundAt_of_ne {t : ι} (h : t ≠ loc (T.rank t)) : R.toRoundAt T.rank loc op tag child t = [] := if_neg h

theorem Column.team_flatMap (hidle : ∀ r, n ≤ r → R r = []) (r : Nat) :
    (T.team r).flatMap (R.toRoundAt T.rank loc op tag child) = (R r).map (·.toEntry op r tag (child r)) := by
  by_cases hr : r < n
  · obtain ⟨A, B, hAB⟩ := append_of_mem (C.team r hr)
    have hnodup := T.nodup r
    have hother : ∀ l : List ι, (∀ t ∈ l, t ∈ T.team r ∧ t ≠ loc r) →
        l.flatMap (R.toRoundAt T.rank loc op tag child) = [] := by
      intro l hl
      refine flatMap_eq_nil_iff.mpr fun t ht => toRoundAt_of_ne child op ?_
      rw [T.rank_eq r t (hl t ht).1]
      exact (hl t ht).2
    rw [hAB] at hnodup
    obtain ⟨-, hB, hdis⟩ := nodup_append.mp hnodup
    have hA := hother A fun t ht => ⟨hAB ▸ mem_append_left _ ht, fun h =>
      hdis _ ht _ mem_cons_self h⟩
    have hB := hother B fun t ht => ⟨hAB ▸ mem_append_right _ (mem_cons_of_mem _ ht), fun h =>
      (nodup_cons.mp hB).1 (h ▸ ht)⟩
    rw [hAB, flatMap_append, flatMap_cons, C.toRoundAt_loc, hA, hB, nil_append, append_nil]
  · rw [hidle r (not_lt.mp hr), map_nil]
    refine flatMap_eq_nil_iff.mpr fun t ht => ?_
    unfold toRoundAt
    rw [T.rank_eq r t ht, hidle r (not_lt.mp hr), map_nil, ite_self]

theorem Column.out_toRoundAt (R : SchedRound) (σ : Nat → Mem α) (s d : Nat) :
    (R.toRoundAt T.rank loc op tag child).out T σ ⟨s, d, tag⟩ = R.inbox σ s d := by
  unfold Round.out inbox
  rw [C.src, C.rank, C.toRoundAt_loc]
  rw [find?_map, sendsOn_comp_toEntry, Option.bind_map]
  cases (R s).find? fun e => e.kind.sentTo.any (·.1 = d) with
  | none => rfl
  | some e =>
    obtain ⟨kind, b⟩ := e
    cases kind <;> rfl

theorem Column.exec_toRoundAt (hidle : ∀ r, n ≤ r → R r = []) (σ : Nat → Mem α) (r : Nat) :
    (R.toRoundAt T.rank loc op tag child).exec T σ r = R.exec op σ r := by
  unfold Round.exec exec
  rw [C.team_flatMap child op hidle]
  refine applyAll_of_map_eq ?_ _
  rw [map_map]
  refine map_congr_left fun e _ => ?_
  obtain ⟨kind, b⟩ := e
  have hout := C.out_toRoundAt child op R σ
  cases kind with
  | recv buf cnt src =>
    show id ∘ store buf ((R.toRoundAt T.rank loc op tag child).out T σ ⟨src, r, tag⟩) = _
    rw [hout]
    rfl
  | recvReduce inoutBuf cnt src commBuf result =>
    show (compReduce op _ cnt _) ∘ store commBuf ((R.toRoundAt T.rank loc op tag child).out T σ ⟨src, r, tag⟩) = _
    rw [hout]
    rfl
  | recvCopy recvBuf copyBuf cnt src =>
    show (compCopy recvBuf copyBuf cnt) ∘
      store recvBuf ((R.toRoundAt T.rank loc op tag child).out T σ ⟨src, r, tag⟩) = _
    rw [hout]
    rfl
  | _ => rfl

theorem Column.length_sendsOn (R : SchedRound) (c : Chan) :
    ((R.toRoundAt T.rank loc op tag child (T.src c)).filter fun e => e.op.sendsOn c).length =
      if tag = c.tag then (sendCnts (R c.src) c.dst).length else 0 := by
  by_cases ht : tag = c.tag
  · obtain ⟨s, d, tag'⟩ := c
    obtain rfl : tag = tag' := ht
    rw [if_pos rfl, C.src, C.toRoundAt_loc, filter_map, length_map, sendsOn_comp_toEntry, length_filter_any, sendCnts_eq,
      length_map]
  · rw [if_neg ht, length_eq_zero_iff, filter_eq_nil_iff]
    intro e he hs
    unfold toRoundAt at he
    obtain ⟨-, he⟩ := mem_ite_nil_right.mp he
    obtain ⟨⟨kind, b⟩, -, rfl⟩ := mem_map.mp he
    cases kind with
    | send buf cnt dst => exact ht (congrArg Chan.tag (of_decide_eq_true hs))
    | _ => cases hs

theorem Column.length_recvsOn (R : SchedRound) (c : Chan) :
    ((R.toRoundAt T.rank loc op tag child (T.dst c)).filter fun e => e.op.recvsOn c).length =
      if tag = c.tag then (recvCnts (R c.dst) c.src).length else 0 := by
  by_cases ht : tag = c.tag
  · obtain ⟨s, d, tag'⟩ := c
    obtain rfl : tag = tag' := ht
    have hp : ((fun e : Async.Entry ι Chan Nat (Mem α) (List α) => e.op.recvsOn ⟨s, d, tag⟩) ∘
        fun e : SchedEntry => e.toEntry op d tag (child d)) = fun e => e.kind.receivedFrom.any (·.1 = s) := by
      funext e
      show (e.toEntry op d tag (child d)).op.recvsOn ⟨s, d, tag⟩ = _
      rw [recvsOn_toEntry (child d) op d tag _ e rfl]
      simp only [and_true]
    rw [if_pos rfl, C.dst, C.toRoundAt_loc, filter_map, length_map, hp, length_filter_any, recvCnts_eq,
      length_map]
  · rw [if_neg ht, length_eq_zero_iff, filter_eq_nil_iff]
    intro e he hs
    unfold toRoundAt at he
    obtain ⟨-, he⟩ := mem_ite_nil_right.mp he
    obtain ⟨⟨kind, b⟩, -, rfl⟩ := mem_map.mp he
    have htag : ∀ {src}, (⟨src, T.rank (T.dst c), tag⟩ : Chan) = c → False := fun h => ht (congrArg Chan.tag h)
    cases kind with
    | recv | recvReduce | recvCopy => exact htag (of_decide_eq_true hs)
    | _ => cases hs

end Column

namespace Roomy

variable {R : SchedRound} {n : Nat} {dest orig : Nat → Option (Nat × Nat)} (g : R.Roomy n dest orig)

include g

variable {r : Nat}

theorem dest_eq (he : e ∈ R r) (hp : e.kind.sentTo = some p) : dest r = some p := by
  have hm : p ∈ (R r).filterMap (·.kind.sentTo) := mem_filterMap.mpr ⟨e, he, hp⟩
  rw [g.sent r] at hm
  exact Option.mem_toList.mp hm

theorem orig_eq (he : e ∈ R r) (hp : e.kind.receivedFrom = some p) : orig r = some p := by
  have hm : p ∈ (R r).filterMap (·.kind.receivedFrom) := mem_filterMap.mpr ⟨e, he, hp⟩
  rw [g.received r] at hm
  exact Option.mem_toList.mp hm

theorem inbox_eq {s d : Nat} {buf : CclBuffer} {cnt : Nat} (he : ⟨.send buf cnt d, b⟩ ∈ R s) (σ : Nat → Mem α) :
    R.inbox σ s d = load buf cnt (σ s) := by
  have hone : ((R s).filter fun e => e.kind.sentTo.any fun _ => true).length ≤ 1 := by
    rw [length_filter_any, g.sent s, filter_true]
    exact Option.length_toList_le
  have only : ∀ e ∈ R s, ∀ p, e.kind.sentTo = some p → e = ⟨.send buf cnt d, b⟩ := by
    intro e hes p hp
    have h1 : e ∈ (R s).filter fun e => e.kind.sentTo.any fun _ => true :=
      mem_filter.mpr ⟨hes, by rw [hp]; rfl⟩
    have h2 : (⟨.send buf cnt d, b⟩ : SchedEntry) ∈ (R s).filter fun e => e.kind.sentTo.any fun _ => true :=
      mem_filter.mpr ⟨he, rfl⟩
    exact eq_of_length_le_one hone h1 h2
  unfold inbox
  cases hf : (R s).find? fun e => e.kind.sentTo.any (·.1 = d) with
  | none => exact absurd (decide_eq_true rfl) (find?_eq_none.mp hf _ he)
  | some e =>
    have hany := find?_some hf
    obtain ⟨p, hp, -⟩ := (Option.any_eq_true ..).mp hany
    rw [only e (mem_of_find?_eq_some hf) p hp]
    rfl

theorem length_cnts_eq (s d : Nat) : (sendCnts (R s) d).length = (recvCnts (R d) s).length := by
  classical
  rw [sendCnts_eq, recvCnts_eq, g.sent s, g.received d, length_map, length_map]
  have hlen : ∀ {o : Option (Nat × Nat)} {x : Nat},
      (o.toList.filter (·.1 = x)).length = if ∃ c, o = some (x, c) then 1 else 0 := by
    intro o x
    cases o with
    | none => simp
    | some p =>
      obtain ⟨y, c⟩ := p
      by_cases h : y = x <;> simp [h]
  rw [hlen, hlen]
  simp only [g.paired s d]

theorem indep (op : α → α → α) (tag r : Nat) (child : Nat → ι) :
    ((R r).map (·.toEntry op r tag child)).Pairwise fun e e' => e.op.Indep e'.op :=
  pairwise_map.mpr ((g.apart r).imp fun h => h.indep op r tag r tag child)

/-- **A round of schedules is a good round of the net.** -/
theorem toRoundAt_good [DecidableEq ι] {T : Layout ι Nat Chan} {loc : Nat → ι} (C : Column T n loc tag)
    (child : Nat → Nat → ι) (op : α → α → α) : (R.toRoundAt T.rank loc op tag child).Good T fun _ => maxFlowCredits := by
  -- a task that does something in the round is the column's of its rank
  have hloc : ∀ {t e}, e ∈ R.toRoundAt T.rank loc op tag child t →
      t = loc (T.rank t) ∧ ∃ e' ∈ R (T.rank t), e'.toEntry op (T.rank t) tag (child (T.rank t)) = e := by
    intro t e he
    unfold toRoundAt at he
    split at he
    · exact ⟨‹_›, mem_map.mp he⟩
    · cases he
  refine ⟨fun t ht => ?_, fun t e he c read hop => ?_, fun t e he c fits store finish hop => ?_, fun c => ?_,
    fun c => ?_, fun c e he e' he' read fits store finish hop hop' m => ?_, fun r => ?_,
    fun t l e l' hl hbar => ?_, fun t e he k hop => ?_, fun t => ?_⟩
  · obtain ⟨e, he⟩ := exists_mem_of_ne_nil _ ht
    obtain ⟨h1, e', he', -⟩ := hloc he
    rw [h1, C.rank]
    refine C.team _ ?_
    by_contra hge
    rw [g.idle _ (not_lt.mp hge)] at he'
    cases he'
  · obtain ⟨h1, e', -, rfl⟩ := hloc he
    obtain ⟨buf, cnt, dst, -, rfl, -⟩ := toOp_send hop
    rw [C.src, ← h1]
  · obtain ⟨h1, e', -, rfl⟩ := hloc he
    obtain ⟨src, cnt, -, rfl, -⟩ := toOp_recv hop
    rw [C.dst, ← h1]
  · rw [C.length_sendsOn]
    split
    · rw [sendCnts_eq, length_map, g.sent]
      exact (length_filter_le ..).trans Option.length_toList_le
    · exact Nat.zero_le _
  · rw [C.length_sendsOn, C.length_recvsOn, g.length_cnts_eq]
  · obtain ⟨h1, e, hmem, rfl⟩ := hloc he
    obtain ⟨h2, e', hmem', rfl⟩ := hloc he'
    obtain ⟨buf, cnt, dst, hkind, hc, rfl⟩ := toOp_send hop
    obtain ⟨src, cnt', hfrom, hc', rfl⟩ := toOp_recv hop'
    -- the receive has room for what is sent
    have hsent := g.dest_eq hmem (p := (dst, cnt)) (by rw [hkind]; rfl)
    have hrecv := g.orig_eq hmem' hfrom
    rw [hc] at hsent
    rw [hc'] at hrecv
    rw [C.src, C.rank] at hsent
    rw [C.dst, C.rank] at hrecv
    have heq := hc.symm.trans hc'
    have hs := congrArg Chan.src heq
    have hd := congrArg Chan.dst heq
    simp only at hs hd
    refine decide_eq_true ?_
    rw [length_load]
    rw [hs, hd] at hsent
    exact g.room _ _ _ _ hsent hrecv
  · rw [C.team_flatMap child op g.idle]
    exact g.indep op tag r (child r)
  · unfold toRoundAt at hl
    split at hl
    next =>
      obtain ⟨A, B, hR, rfl, hB⟩ := map_eq_append_iff.mp hl
      obtain ⟨e₀, B, rfl, rfl, rfl⟩ := map_eq_cons_iff.mp hB
      rcases g.wait (T.rank t) with hw | hw
      · refine .inl ?_
        cases B with
        | nil => rfl
        | cons e₁ B =>
          have hmem : e₀ ∈ (R (T.rank t)).dropLast := by
            rw [hR, dropLast_append_of_ne_nil (by simp), dropLast_cons_of_ne_nil (by simp)]
            exact mem_append_right _ mem_cons_self
          exact absurd (show e₀.barrier = true from hbar) (by rw [hw e₀ hmem]; exact Bool.noConfusion)
      · refine .inr fun e' he' => ?_
        rw [← map_singleton, ← map_append] at he'
        obtain ⟨e'', hmem, rfl⟩ := mem_map.mp he'
        refine (isAct_toOp op _ tag _ e''.kind).trans (hw e'' ?_)
        rw [hR]
        rcases mem_append.mp hmem with h | h
        · exact mem_append_left _ h
        · exact mem_append_right _ (mem_singleton.mp h ▸ mem_cons_self)
    next => exact absurd hl (by simp)
  · obtain ⟨h1, ⟨kind, b⟩, hmem, rfl⟩ := hloc he
    have hplain := g.plain _ _ hmem
    cases kind with
    | sync k' => exact absurd rfl (hplain.1 k')
    | _ => cases hop
  · unfold toRoundAt
    split
    · rw [length_map]
      exact g.small _
    · exact Nat.zero_le _

end Roomy

namespace Good

variable {R : SchedRound} {n : Nat} {dest orig : Nat → Option (Nat × Nat)} (g : R.Good n dest orig)

include g

theorem cnts_eq (s d : Nat) : sendCnts (R s) d = recvCnts (R d) s := by
  rw [sendCnts_eq, recvCnts_eq, g.sent s, g.received d]
  have hagree := g.agree s d
  -- either side has the one message of the pair, or none
  cases hs : dest s with
  | none =>
    cases hd : orig d with
    | none => rfl
    | some q =>
      by_cases hq : q.1 = s
      · have := (hagree q.2).mpr (by rw [hd, ← hq])
        rw [hs] at this
        cases this
      · simp [hq]
  | some p =>
    by_cases hp : p.1 = d
    · have := (hagree p.2).mp (by rw [hs, ← hp])
      rw [this]
      simp [hp]
    · cases hd : orig d with
      | none => simp [hp]
      | some q =>
        by_cases hq : q.1 = s
        · have := (hagree q.2).mpr (by rw [hd, ← hq])
          rw [hs] at this
          exact absurd (congrArg Prod.fst (Option.some.inj this)) hp
        · simp [hp, hq]

end Good

end SchedRound

/-! ## Rounds that end in a barrier, or in none -/

/-- The entries of a list of kinds, the last of them a barrier or not. -/
def entriesOf (barrier : Bool) : List EntryKind → List SchedEntry
  | [] => []
  | [k] => [⟨k, barrier⟩]
  | k :: k' :: ks => ⟨k, false⟩ :: entriesOf barrier (k' :: ks)

@[simp] theorem entriesOf_nil (b : Bool) : entriesOf b [] = [] := rfl

@[simp] theorem entriesOf_singleton (b : Bool) (k : EntryKind) : entriesOf b [k] = [⟨k, b⟩] := rfl

@[simp] theorem entriesOf_cons_cons (b : Bool) (k k' : EntryKind) (ks : List EntryKind) :
    entriesOf b (k :: k' :: ks) = ⟨k, false⟩ :: entriesOf b (k' :: ks) := rfl

theorem map_kind_entriesOf (b : Bool) (ks : List EntryKind) : (entriesOf b ks).map (·.kind) = ks := by
  induction ks using entriesOf.induct with
  | case1 => rfl
  | case2 k => rfl
  | case3 k k' ks ih => rw [entriesOf_cons_cons, map_cons, ih]

theorem filterMap_entriesOf (f : EntryKind → Option β) (b : Bool) (ks : List EntryKind) :
    (entriesOf b ks).filterMap (fun e => f e.kind) = ks.filterMap f := by
  conv_rhs => rw [← map_kind_entriesOf b ks, filterMap_map]
  rfl

theorem mem_entriesOf {ks : List EntryKind} (h : e ∈ entriesOf b ks) : e.kind ∈ ks := by
  rw [← map_kind_entriesOf b ks]
  exact mem_map_of_mem h

theorem barrier_dropLast_entriesOf (b : Bool) (ks : List EntryKind) :
    ∀ e ∈ (entriesOf b ks).dropLast, e.barrier = false := by
  induction ks using entriesOf.induct with
  | case1 | case2 k => exact forall_mem_nil _
  | case3 k k' ks ih =>
    intro e he
    have hne : entriesOf b (k' :: ks) ≠ [] := by
      intro h
      have := congrArg (map (·.kind)) h
      rw [map_kind_entriesOf] at this
      exact cons_ne_nil _ _ this
    rw [entriesOf_cons_cons, dropLast_cons_of_ne_nil hne] at he
    rcases mem_cons.mp he with rfl | he
    · rfl
    · exact ih e he

theorem getLast?_entriesOf (b : Bool) (ks : List EntryKind) (hne : ks ≠ []) :
    ∃ e ∈ (entriesOf b ks).getLast?, e.barrier = b := by
  induction ks using entriesOf.induct with
  | case1 => exact absurd rfl hne
  | case2 k => exact ⟨⟨k, b⟩, rfl, rfl⟩
  | case3 k k' ks ih =>
    obtain ⟨e, he, hb⟩ := ih (cons_ne_nil _ _)
    refine ⟨e, ?_, hb⟩
    rw [entriesOf_cons_cons, getLast?_cons, he]
    rfl

def SchedRound.ofKinds (barrier : Bool) (kinds : Nat → List EntryKind) : SchedRound :=
  fun r => entriesOf barrier (kinds r)

/-- A round given by its kinds, with a barrier at the end for some of the ranks. -/
def SchedRound.ofKindsAt (barrier : Nat → Bool) (kinds : Nat → List EntryKind) : SchedRound :=
  fun r => entriesOf (barrier r) (kinds r)

/-- What a round given by its kinds has to satisfy, apart from the lengths of its messages. -/
structure KindsShaped (kinds : Nat → List EntryKind) (n : Nat) : Prop where
  idle : ∀ r, n ≤ r → kinds r = []
  send_once : ∀ r, ((kinds r).filterMap (·.sentTo)).length ≤ 1
  recv_once : ∀ r, ((kinds r).filterMap (·.receivedFrom)).length ≤ 1
  plain : ∀ r, ∀ k ∈ kinds r, (∀ i, k ≠ .sync i) ∧ ∀ i, k ≠ .subsched i
  apart : ∀ r, (kinds r).Pairwise EntryKind.Apart
  small : ∀ r, (kinds r).length ≤ maxFlowCredits

/-- What a round given by its kinds has to satisfy. -/
structure KindsGood (kinds : Nat → List EntryKind) (n : Nat) : Prop extends KindsShaped kinds n where
  agree : ∀ s d c, (d, c) ∈ (kinds s).filterMap (·.sentTo) ↔ (s, c) ∈ (kinds d).filterMap (·.receivedFrom)

/-- What a round given by its kinds has to satisfy, if receives may be longer than their messages. -/
structure KindsRoomy (kinds : Nat → List EntryKind) (n : Nat) : Prop extends KindsShaped kinds n where
  paired : ∀ s d, (∃ c, (d, c) ∈ (kinds s).filterMap (·.sentTo)) ↔ ∃ c, (s, c) ∈ (kinds d).filterMap (·.receivedFrom)
  room : ∀ s d c c', (d, c) ∈ (kinds s).filterMap (·.sentTo) → (s, c') ∈ (kinds d).filterMap (·.receivedFrom) → c ≤ c'

section

variable {kinds : Nat → List EntryKind}

theorem KindsGood.roomy (h : KindsGood kinds n) : KindsRoomy kinds n where
  toKindsShaped := h.toKindsShaped
  paired s d := exists_congr (h.agree s d)
  room s d c c' hs hd := by
    have heq := eq_of_length_le_one (h.recv_once d) ((h.agree s d c).mp hs) hd
    exact Nat.le_of_eq (Prod.mk.inj heq).2

theorem toList_head?_of_length_le_one (h : l.length ≤ 1) : l = l.head?.toList := by
  match l, h with
  | [], _ => rfl
  | [a], _ => rfl

theorem pairwise_of_length_le_one {R : β → β → Prop} (h : l.length ≤ 1) : l.Pairwise R := by
  match l, h with
  | [], _ => exact .nil
  | [a], _ => exact pairwise_singleton ..

theorem head?_eq_iff_mem (h : l.length ≤ 1) {a : β} : l.head? = some a ↔ a ∈ l := by
  rw [← Option.mem_toList, ← toList_head?_of_length_le_one h]

theorem KindsRoomy.roomy_at (h : KindsRoomy kinds n) (b : Nat → Bool) :
    (ofKindsAt b kinds).Roomy n (fun r => ((kinds r).filterMap (·.sentTo)).head?)
      fun r => ((kinds r).filterMap (·.receivedFrom)).head? where
  idle r hr := by rw [ofKindsAt, h.idle r hr, entriesOf_nil]
  sent r := (filterMap_entriesOf _ (b r) _).trans (toList_head?_of_length_le_one (h.send_once r))
  received r := (filterMap_entriesOf _ (b r) _).trans (toList_head?_of_length_le_one (h.recv_once r))
  paired s d := by
    simp only [head?_eq_iff_mem (h.send_once s), head?_eq_iff_mem (h.recv_once d)]
    exact h.paired s d
  room s d c c' hs hd := by
    rw [head?_eq_iff_mem (h.send_once s)] at hs
    rw [head?_eq_iff_mem (h.recv_once d)] at hd
    exact h.room s d c c' hs hd
  plain r e he := h.plain r e.kind (mem_entriesOf he)
  apart r := by
    have := h.apart r
    rwa [← map_kind_entriesOf (b r) (kinds r), pairwise_map] at this
  wait r := .inl (barrier_dropLast_entriesOf (b r) _)
  small r := by
    rw [← length_map (·.kind), ofKindsAt, map_kind_entriesOf]
    exact h.small r

theorem KindsGood.good_at (h : KindsGood kinds n) (b : Nat → Bool) :
    (ofKindsAt b kinds).Good n (fun r => ((kinds r).filterMap (·.sentTo)).head?)
      fun r => ((kinds r).filterMap (·.receivedFrom)).head? where
  toShaped := (h.roomy.roomy_at b).toShaped
  agree s d c := by
    rw [head?_eq_iff_mem (h.send_once s), head?_eq_iff_mem (h.recv_once d)]
    exact h.agree s d c

theorem KindsGood.isGood (h : KindsGood kinds n) (b : Bool) :
    ∃ dest orig, (ofKinds b kinds).Good n dest orig := ⟨_, _, h.good_at fun _ => b⟩

theorem SchedRound.closed_ofKinds (kinds : Nat → List EntryKind) : (ofKinds true kinds).Closed := by
  intro r
  by_cases h : kinds r = []
  · right
    rw [ofKinds, h]
    exact forall_mem_nil _
  · exact .inl (getLast?_entriesOf true _ h)

theorem SchedRound.closed_of_local (h : ∀ r, ∀ k ∈ kinds r, k.isLocal = true)
    (b : Bool) : (ofKinds b kinds).Closed :=
  fun r => .inr fun e he => h r e.kind (mem_entriesOf he)

theorem EntryKind.sentTo_of_receives {k : EntryKind} {p : Nat × Nat} (h : k.receivedFrom = some p) : k.sentTo = none := by
  cases k <;> first | rfl | cases h

theorem kindsShaped_single (hidle : ∀ r, n ≤ r → kinds r = []) (hone : ∀ r, (kinds r).length ≤ 1)
    (hplain : ∀ r, ∀ k ∈ kinds r, (∀ i, k ≠ .sync i) ∧ ∀ i, k ≠ .subsched i) : KindsShaped kinds n where
  idle := hidle
  send_once r := (length_filterMap_le ..).trans (hone r)
  recv_once r := (length_filterMap_le ..).trans (hone r)
  plain := hplain
  apart r := pairwise_of_length_le_one (hone r)
  small r := (hone r).trans (by decide)

/-- Every rank sends or not and receives or not, in either order, and who is sent to receives. -/
theorem kindsGood_beside (sends recvs : Nat → List EntryKind) (hidle : ∀ r, n ≤ r → kinds r = [])
    (hkinds : ∀ r, kinds r = sends r ++ recvs r ∨ kinds r = recvs r ++ sends r)
    (hsends : ∀ r, sends r = [] ∨ ∃ buf c d k, sends r = [.send buf c d] ∧ recvs d = [k] ∧ k.receivedFrom = some (r, c))
    (hrecvs : ∀ r, recvs r = [] ∨
      ∃ k s c buf, recvs r = [k] ∧ k.receivedFrom = some (s, c) ∧ sends s = [.send buf c r])
    (hapart : ∀ r, ∀ k ∈ recvs r, ∀ k' ∈ sends r, k.Apart k') : KindsGood kinds n := by
  have hsent : ∀ r, (kinds r).filterMap (·.sentTo) = (sends r).filterMap (·.sentTo) := by
    intro r
    have hnone : (recvs r).filterMap (·.sentTo) = [] := by
      rcases hrecvs r with h | ⟨k, s, c, buf, h, hk, -⟩
      · rw [h, filterMap_nil]
      · rw [h, filterMap_cons_none (sentTo_of_receives hk), filterMap_nil]
    rcases hkinds r with h | h <;> rw [h, filterMap_append, hnone]
    · exact append_nil _
    · exact nil_append _
  have hrecv : ∀ r, (kinds r).filterMap (·.receivedFrom) = (recvs r).filterMap (·.receivedFrom) := by
    intro r
    have hnone : (sends r).filterMap (·.receivedFrom) = [] := by
      rcases hsends r with h | ⟨buf, c, d, k, h, -⟩ <;> rw [h] <;> rfl
    rcases hkinds r with h | h <;> rw [h, filterMap_append, hnone]
    · exact nil_append _
    · exact append_nil _
  have hs1 : ∀ r, (sends r).length ≤ 1 := by
    intro r
    rcases hsends r with h | ⟨buf, c, d, k, h, -⟩ <;> simp [h]
  have hr1 : ∀ r, (recvs r).length ≤ 1 := by
    intro r
    rcases hrecvs r with h | ⟨k, s, c, buf, h, -⟩ <;> simp [h]
  refine ⟨⟨hidle, fun r => ?_, fun r => ?_, fun r k hk => ?_, fun r => ?_, fun r => ?_⟩, fun s d c => ?_⟩
  · rw [hsent]
    exact (length_filterMap_le ..).trans (hs1 r)
  · rw [hrecv]
    exact (length_filterMap_le ..).trans (hr1 r)
  · have hmem : k ∈ sends r ∨ k ∈ recvs r := by
      rcases hkinds r with h | h <;> simpa [h, or_comm] using hk
    rcases hmem with hk | hk
    · rcases hsends r with h | ⟨buf, c, d, k, h, -⟩ <;> rw [h] at hk
      · cases hk
      · rw [mem_singleton.mp hk]
        exact ⟨nofun, nofun⟩
    · rcases hrecvs r with h | ⟨k', s, c, buf, h, hk', -⟩ <;> rw [h] at hk
      · cases hk
      · obtain rfl := mem_singleton.mp hk
        constructor <;> intro i hi <;> rw [hi] at hk' <;> cases hk'
  · have hs := pairwise_of_length_le_one (R := EntryKind.Apart) (hs1 r)
    have hr := pairwise_of_length_le_one (R := EntryKind.Apart) (hr1 r)
    rcases hkinds r with h | h <;> rw [h]
    · exact pairwise_append.mpr ⟨hs, hr, fun k hk k' hk' => (hapart r k' hk' k hk).symm⟩
    · exact pairwise_append.mpr ⟨hr, hs, hapart r⟩
  · have hs := hs1 r
    have hr := hr1 r
    have : (2 : Nat) ≤ maxFlowCredits := by decide
    rcases hkinds r with h | h <;> rw [h, length_append] <;> omega
  · rw [hsent, hrecv]
    constructor
    · intro h
      rcases hsends s with hs | ⟨buf, c', d', k, hs, hr, hk⟩ <;> rw [hs] at h
      · cases h
      · cases mem_singleton.mp h
        rw [hr, filterMap_cons_some hk]
        exact mem_cons_self
    · intro h
      rcases hrecvs d with hr | ⟨k, s', c', buf, hr, hk, hs⟩ <;> rw [hr] at h
      · cases h
      · rw [filterMap_cons_some hk] at h
        cases mem_singleton.mp h
        rw [hs]
        exact mem_cons_self

theorem kindsGood_local (hidle : ∀ r, n ≤ r → kinds r = [])
    (hone : ∀ r, (kinds r).length ≤ 1) (hloc : ∀ r, ∀ k ∈ kinds r, k.isLocal = true) : KindsGood kinds n := by
  have none : ∀ f : EntryKind → Option (Nat × Nat), (∀ k, k.isLocal = true → f k = none) →
      ∀ r, (kinds r).filterMap f = [] := fun f hf r =>
    filterMap_eq_nil_iff.mpr fun k hk => hf k (hloc r k hk)
  have hs := none (·.sentTo) fun k hk => by cases k <;> first | rfl | cases hk
  have hr := none (·.receivedFrom) fun k hk => by cases k <;> first | rfl | cases hk
  refine ⟨kindsShaped_single hidle hone fun r k hk => ?_, fun s d c => by
    rw [hs, hr]
    simp only [not_mem_nil]⟩
  have := hloc r k hk
  constructor <;> rintro i rfl <;> cases this

section

variable {p q : Nat → Prop} [DecidablePred p] [DecidablePred q] (hlt : ∀ r, p r → r < n)

include hlt

/-- Some ranks do something of their own. -/
theorem kindsGood_ite {f : Nat → EntryKind} (hloc : ∀ r, (f r).isLocal = true) :
    KindsGood (fun r => if p r then [f r] else []) n := by
  refine kindsGood_local (fun r hr => if_neg fun h => hr.not_gt (hlt r h)) (fun r => ?_) fun r k hk => ?_
  · split
    · exact le_rfl
    · exact Nat.zero_le _
  · obtain ⟨-, hk⟩ := mem_ite_nil_right.mp hk
    rw [mem_singleton.mp hk]
    exact hloc r

/-- Some ranks send and the others of them receive. -/
theorem kindsGood_pairs {sendBuf : Nat → CclBuffer} {receive : Nat → EntryKind} {dst src : Nat → Nat} {cnt : Nat}
    (hrecv : ∀ r, (receive r).receivedFrom = some (src r, cnt))
    (hpairs : ∀ s d, p s ∧ q s ∧ d = dst s ↔ p d ∧ ¬q d ∧ s = src d) :
    KindsGood (fun r => if p r then if q r then [.send (sendBuf r) cnt (dst r)] else [receive r] else []) n := by
  refine kindsGood_beside (fun r => if p r ∧ q r then [.send (sendBuf r) cnt (dst r)] else [])
    (fun r => if p r ∧ ¬q r then [receive r] else []) (fun r hr => if_neg fun h => hr.not_gt (hlt r h))
    (fun r => ?_) (fun r => ?_) (fun r => ?_) fun r k hk k' hk' => ?_
  · left
    split_ifs <;> simp_all
  · refine (em (p r ∧ q r)).symm.imp (fun h => if_neg h) fun h => ⟨_, _, _, _, if_pos h, if_pos ?_, ?_⟩
    · exact and_assoc.mpr ((hpairs r _).mp ⟨h.1, h.2, rfl⟩) |>.1
    · rw [hrecv, ← ((hpairs r _).mp ⟨h.1, h.2, rfl⟩).2.2]
  · refine (em (p r ∧ ¬q r)).symm.imp (fun h => if_neg h) fun h => ⟨_, _, _, sendBuf (src r), if_pos h, hrecv r, ?_⟩
    obtain ⟨hp, hq, hd⟩ := (hpairs _ r).mpr ⟨h.1, h.2, rfl⟩
    rw [if_pos ⟨hp, hq⟩, ← hd]
  · exact absurd (mem_ite_nil_right.mp hk').1.2 (mem_ite_nil_right.mp hk).1.2

end

end

/-! ### Rounds of one send and one receive -/

/-- What a rank sends and receives in a round: the entry that receives, and the two messages. -/
structure Swap where
  receive : EntryKind
  buf : CclBuffer
  dst : Nat
  sendCnt : Nat
  src : Nat
  recvCnt : Nat

/-- The entries of a swap, in either order. -/
def Swap.kinds (sendFirst : Bool) (x : Swap) : List EntryKind :=
  if sendFirst then [.send x.buf x.sendCnt x.dst, x.receive] else [x.receive, .send x.buf x.sendCnt x.dst]

def swapKinds (sendFirst : Bool) (swap : Nat → Option Swap) (r : Nat) : List EntryKind :=
  (swap r).elim [] (Swap.kinds sendFirst)

/-- Every rank that sends is received from by whom it sends to, and the other way round. -/
structure SwapGood (swap : Nat → Option Swap) (n : Nat) : Prop where
  idle : ∀ r, n ≤ r → swap r = none
  receives : ∀ r x, swap r = some x → x.receive.receivedFrom = some (x.src, x.recvCnt)
  forth : ∀ r x, swap r = some x → ∃ y, swap x.dst = some y ∧ y.src = r ∧ y.recvCnt = x.sendCnt
  back : ∀ r x, swap r = some x → ∃ y, swap x.src = some y ∧ y.dst = r ∧ y.sendCnt = x.recvCnt
  apart : ∀ r x, swap r = some x → x.receive.Apart (.send x.buf x.sendCnt x.dst)

theorem swapGood_ite {x : Nat → Swap} (hreceives : ∀ r < n, (x r).receive.receivedFrom = some ((x r).src, (x r).recvCnt))
    (hforth : ∀ r < n, (x r).dst < n ∧ (x (x r).dst).src = r ∧ (x (x r).dst).recvCnt = (x r).sendCnt)
    (hback : ∀ r < n, (x r).src < n ∧ (x (x r).src).dst = r ∧ (x (x r).src).sendCnt = (x r).recvCnt)
    (hapart : ∀ r < n, (x r).receive.Apart (.send (x r).buf (x r).sendCnt (x r).dst)) :
    SwapGood (fun r => if r < n then some (x r) else none) n := by
  refine ⟨fun r hr => if_neg hr.not_gt, fun r y hy => ?_, fun r y hy => ?_, fun r y hy => ?_, fun r y hy => ?_⟩ <;>
    obtain ⟨hr, hy⟩ := Option.ite_none_right_eq_some.mp hy <;> cases hy
  · exact hreceives r hr
  · obtain ⟨hlt, hsrc, hcnt⟩ := hforth r hr
    exact ⟨_, if_pos hlt, hsrc, hcnt⟩
  · obtain ⟨hlt, hdst, hcnt⟩ := hback r hr
    exact ⟨_, if_pos hlt, hdst, hcnt⟩
  · exact hapart r hr

theorem SwapGood.kindsGood (h : SwapGood swap n) (sendFirst : Bool) : KindsGood (swapKinds sendFirst swap) n := by
  refine kindsGood_beside (fun r => (swap r).elim [] fun x => [.send x.buf x.sendCnt x.dst])
    (fun r => (swap r).elim [] fun x => [x.receive]) (fun r hr => ?_) (fun r => ?_) (fun r => ?_) (fun r => ?_)
    fun r k hk k' hk' => ?_
  · rw [swapKinds, h.idle r hr]
    rfl
  · unfold swapKinds
    cases swap r with
    | none => exact .inl rfl
    | some x =>
      cases sendFirst
      · exact .inr rfl
      · exact .inl rfl
  · cases hr : swap r with
    | none => exact .inl rfl
    | some x =>
      obtain ⟨y, hy, hsrc, hcnt⟩ := h.forth r x hr
      exact .inr ⟨_, _, _, _, rfl, by rw [hy]; rfl, by rw [h.receives _ y hy, hsrc, hcnt]⟩
  · cases hr : swap r with
    | none => exact .inl rfl
    | some x =>
      obtain ⟨y, hy, hdst, hcnt⟩ := h.back r x hr
      exact .inr ⟨_, _, _, _, rfl, h.receives r x hr, by rw [hy, ← hdst, ← hcnt]; rfl⟩
  · cases hr : swap r with
    | none =>
      rw [hr] at hk
      cases hk
    | some x =>
      rw [hr] at hk hk'
      rw [mem_singleton.mp hk, mem_singleton.mp hk']
      exact h.apart r x hr

variable {r s d cnt src : Nat} {buf inoutBuf commBuf : CclBuffer} {R : SchedRound}

theorem mem_swapKinds_send (sendFirst : Bool) (h : swap r = some x) :
    .send x.buf x.sendCnt x.dst ∈ swapKinds sendFirst swap r := by
  rw [swapKinds, h]
  cases sendFirst <;> simp [Swap.kinds]

theorem SchedRound.exec_ofKinds (op : α → α → α) (b : Bool) (kinds : Nat → List EntryKind) (σ : Nat → Mem α) (r : Nat) :
    (ofKinds b kinds).exec op σ r =
      applyAll (fun k => k.run op fun s => (ofKinds b kinds).inbox σ s r) (kinds r) (σ r) := by
  refine applyAll_of_map_eq ?_ _
  conv_rhs => rw [← map_kind_entriesOf b (kinds r), map_map]
  rfl

theorem SchedRound.exec_barrier (op : α → α → α) (b : Nat → Bool) (b' : Bool) (kinds : Nat → List EntryKind)
    (σ : Nat → Mem α) : (ofKindsAt b kinds).exec op σ = (ofKinds b' kinds).exec op σ := by
  have hfind : ∀ (b : Bool) (ks : List EntryKind) (d : Nat) (m : Mem α),
      ((entriesOf b ks).find? fun e => e.kind.sentTo.any (·.1 = d)).bind (fun e => e.kind.message m) =
        (ks.find? fun k => k.sentTo.any (·.1 = d)).bind fun k => k.message m := by
    intro b ks d m
    conv_rhs => rw [← map_kind_entriesOf b ks, find?_map, Option.bind_map]
    rfl
  have hinbox : (ofKindsAt b kinds).inbox σ = (ofKinds b' kinds).inbox σ := by
    funext s d
    unfold inbox ofKinds ofKindsAt
    rw [hfind, hfind]
  funext r
  rw [exec_ofKinds, ← hinbox]
  refine applyAll_of_map_eq ?_ _
  conv_rhs => rw [← map_kind_entriesOf (b r) (kinds r), map_map]
  rfl

variable {kinds : Nat → List EntryKind}

theorem KindsRoomy.inbox_eq (h : KindsRoomy kinds n) (b : Bool) (hk : .send buf cnt d ∈ kinds s) (σ : Nat → Mem α) :
    (ofKinds b kinds).inbox σ s d = load buf cnt (σ s) := by
  rw [← map_kind_entriesOf b (kinds s)] at hk
  obtain ⟨⟨k, b'⟩, he, rfl⟩ := mem_map.mp hk
  exact (h.roomy_at fun _ => b).inbox_eq he σ

theorem EntryKind.run_congr (h : k.receivedFrom = some (src, cnt)) (op : α → α → α)
    {f f' : Nat → List α} (hf : f src = f' src) : k.run op f = k.run op f' := by
  cases k with
  | recv buf c s =>
    cases h
    exact congrArg (store buf) hf
  | recvReduce | recvCopy =>
    cases h
    simp only [run, hf]
  | _ => cases h

theorem EntryKind.run_recvReduce_local (op : α → α → α)
    (hd : Disjoint (region commBuf cnt) (region inoutBuf cnt)) (hj : j < cnt) (src : Nat) (buf' : CclBuffer) (m m' : Mem α) :
    (recvReduce inoutBuf cnt src commBuf .localBuf).run op (fun _ => load buf' cnt m') m (inoutBuf.at j) =
      op (m (inoutBuf.at j)) (m' (buf'.at j)) := by
  show compReduce op commBuf cnt inoutBuf (store commBuf (load buf' cnt m') m) _ = _
  rw [compReduce_at hj hd, store_load_at hj,
    store_load_of_notMem (Set.disjoint_right.mp hd (at_mem_region.mpr hj))]

theorem EntryKind.run_recvReduce_comm (op : α → α → α)
    (hd : Disjoint (region inoutBuf cnt) (region commBuf cnt)) (hj : j < cnt) (src : Nat) (buf' : CclBuffer) (m m' : Mem α) :
    (recvReduce inoutBuf cnt src commBuf .commBuf).run op (fun _ => load buf' cnt m') m (commBuf.at j) =
      op (m' (buf'.at j)) (m (inoutBuf.at j)) := by
  show compReduce op inoutBuf cnt commBuf (store commBuf (load buf' cnt m') m) _ = _
  rw [compReduce_at hj hd, store_load_at hj,
    store_load_of_notMem (Set.disjoint_left.mp hd (at_mem_region.mpr hj))]

theorem EntryKind.run_frame {inbox : Nat → List α}
    (hfit : ∀ src cnt, k.receivedFrom = some (src, cnt) → (inbox src).length ≤ cnt) (op : α → α → α)
    (ha : ∀ p ∈ k.writes, a ∉ region p.1 p.2) (m : Mem α) : k.run op inbox m a = m a := by
  cases k with
  | recv buf cnt src => exact store_of_notMem (hfit src cnt rfl) (ha (buf, cnt) (mem_singleton.mpr rfl)) m
  | recvReduce inoutBuf cnt src commBuf result =>
    have h1 := ha (inoutBuf, cnt) mem_cons_self
    have h2 := ha (commBuf, cnt) (mem_cons_of_mem _ (mem_singleton.mpr rfl))
    refine (compReduce_of_notMem ?_ _).trans (store_of_notMem (hfit src cnt rfl) h2 m)
    cases result
    · exact h1
    · exact h2
  | recvCopy recvBuf copyBuf cnt src =>
    exact (compCopy_of_notMem (ha (copyBuf, cnt) (mem_cons_of_mem _ (mem_singleton.mpr rfl))) _).trans
      (store_of_notMem (hfit src cnt rfl) (ha (recvBuf, cnt) mem_cons_self) m)
  | copy inBuf outBuf cnt => exact compCopy_of_notMem (ha (outBuf, cnt) (mem_singleton.mpr rfl)) m
  | reduceLocal inBuf cnt inoutBuf => exact compReduce_of_notMem (ha (inoutBuf, cnt) (mem_singleton.mpr rfl)) m
  | _ => rfl

theorem KindsRoomy.fits (g : KindsRoomy kinds n) (b : Bool) (σ : Nat → Mem α)
    (hk : k ∈ kinds r) (src cnt : Nat) (h : k.receivedFrom = some (src, cnt)) :
    ((ofKinds b kinds).inbox σ src r).length ≤ cnt := by
  have hrecv : (src, cnt) ∈ (kinds r).filterMap (·.receivedFrom) := mem_filterMap.mpr ⟨k, hk, h⟩
  obtain ⟨c, hsent⟩ := (g.paired src r).mpr ⟨cnt, hrecv⟩
  have hle := g.room src r c cnt hsent hrecv
  obtain ⟨k', hk', hs⟩ := mem_filterMap.mp hsent
  cases k' with
  | send buf c d =>
    cases hs
    rw [g.inbox_eq b hk' σ, length_load]
    exact hle
  | _ => cases hs

/-- **A round leaves what it does not write.** -/
theorem KindsRoomy.exec_frame (g : KindsRoomy kinds n) (op : α → α → α) (b : Bool)
    (σ : Nat → Mem α) (ha : ∀ k ∈ kinds r, ∀ p ∈ k.writes, a ∉ region p.1 p.2) :
    (ofKinds b kinds).exec op σ r a = σ r a := by
  rw [exec_ofKinds]
  have hfit := fun k hk => g.fits b σ (r := r) (k := k) hk
  revert ha hfit
  generalize σ r = m
  induction kinds r generalizing m with
  | nil => exact fun _ _ => rfl
  | cons k ks ih =>
    intro ha hfit
    rw [applyAll_cons, ih _ (fun k' hk' => ha k' (mem_cons_of_mem _ hk'))
      fun k' hk' => hfit k' (mem_cons_of_mem _ hk')]
    exact run_frame (hfit k mem_cons_self) op (ha k mem_cons_self) m

theorem SwapGood.exec (g : SwapGood swap n) (op : α → α → α) (b sendFirst : Bool) (σ : Nat → Mem α)
    {y : Swap} (hx : swap r = some x) (hy : swap x.src = some y) :
    (ofKinds b (swapKinds sendFirst swap)).exec op σ r =
      x.receive.run op (fun _ => load y.buf y.sendCnt (σ x.src)) (σ r) := by
  have hdst : y.dst = r := by
    obtain ⟨z, hz, h1, -⟩ := g.back r x hx
    rw [hy] at hz
    rw [Option.some.inj hz, h1]
  have hin := (g.kindsGood sendFirst).roomy.inbox_eq b (hdst ▸ mem_swapKinds_send sendFirst hy) σ
  have hrun : x.receive.run op (fun s => (ofKinds b (swapKinds sendFirst swap)).inbox σ s r) =
      x.receive.run op fun _ => load y.buf y.sendCnt (σ x.src) :=
    run_congr (g.receives r x hx) op hin
  rw [exec_ofKinds, swapKinds, hx, ← hrun]
  cases sendFirst <;> rfl

section

variable {swap : Nat → Option Swap} {n : Nat} (g : SwapGood swap n) (op : α → α → α) (b sendFirst : Bool)
  (σ : Nat → Mem α) {r : Nat} {x y : Swap} (hx : swap r = some x) (hy : swap x.src = some y)

include g hx hy

theorem SwapGood.exec_recv_at (hrecv : x.receive = .recv buf cnt src) (hcnt : y.sendCnt = cnt) (hj : j < cnt) :
    (ofKinds b (swapKinds sendFirst swap)).exec op σ r (buf.at j) = σ x.src (y.buf.at j) := by
  rw [g.exec op b sendFirst σ hx hy, hrecv, hcnt]
  exact store_load_at hj _ _ _

theorem SwapGood.exec_recv_of_notMem (hrecv : x.receive = .recv buf cnt src)
    (hcnt : y.sendCnt = cnt) (ha : a ∉ region buf cnt) :
    (ofKinds b (swapKinds sendFirst swap)).exec op σ r a = σ r a := by
  rw [g.exec op b sendFirst σ hx hy, hrecv, hcnt]
  exact store_load_of_notMem ha _ _ _

theorem SwapGood.exec_recvReduce_at
    (hrecv : x.receive = .recvReduce inoutBuf cnt src commBuf .localBuf) (hcnt : y.sendCnt = cnt)
    (hd : Disjoint (region commBuf cnt) (region inoutBuf cnt)) (hj : j < cnt) :
    (ofKinds b (swapKinds sendFirst swap)).exec op σ r (inoutBuf.at j) =
      op (σ r (inoutBuf.at j)) (σ x.src (y.buf.at j)) := by
  rw [g.exec op b sendFirst σ hx hy, hrecv, hcnt]
  exact run_recvReduce_local op hd hj src y.buf (σ r) (σ x.src)

end

/-! ### Ranks that do one thing -/

section

variable {n r : Nat} (op : α → α → α) (b : Bool) (σ : Nat → Mem α)

theorem exec_idle (h : kinds r = []) : (ofKinds b kinds).exec op σ r = σ r := by
  rw [exec_ofKinds, h]
  rfl

theorem exec_send {dst : Nat} (h : kinds r = [.send buf cnt dst]) : (ofKinds b kinds).exec op σ r = σ r := by
  rw [exec_ofKinds, h]
  rfl

theorem exec_copy {outBuf : CclBuffer} (h : kinds r = [.copy inBuf outBuf cnt]) :
    (ofKinds b kinds).exec op σ r = compCopy inBuf outBuf cnt (σ r) := by
  rw [exec_ofKinds, h]
  rfl

theorem exec_reduceLocal (h : kinds r = [.reduceLocal inBuf cnt inoutBuf]) :
    (ofKinds b kinds).exec op σ r = compReduce op inBuf cnt inoutBuf (σ r) := by
  rw [exec_ofKinds, h]
  rfl

theorem exec_recv_room (g : KindsRoomy kinds n) {cnt' : Nat}
    (h : kinds r = [.recv buf cnt s]) (hs : .send buf' cnt' r ∈ kinds s) :
    (ofKinds b kinds).exec op σ r = store buf (load buf' cnt' (σ s)) (σ r) := by
  rw [exec_ofKinds, ← g.inbox_eq b hs σ, h]
  rfl

theorem exec_recv (g : KindsGood kinds n) (h : kinds r = [.recv buf cnt s]) (hs : .send buf' cnt r ∈ kinds s) :
    (ofKinds b kinds).exec op σ r = store buf (load buf' cnt (σ s)) (σ r) := exec_recv_room op b σ g.roomy h hs

theorem exec_filter_sends : (ofKinds b kinds).exec op σ r =
      applyAll (fun k => k.run op fun s => (ofKinds b kinds).inbox σ s r)
        ((kinds r).filter (·.sentTo.isNone)) (σ r) := by
  rw [exec_ofKinds]
  generalize σ r = m
  induction kinds r generalizing m with
  | nil => rfl
  | cons k ks ih =>
    cases k with
    | send buf cnt dst => exact ih m
    | _ => exact ih _

theorem exec_recv_beside (g : KindsGood kinds n)
    (h : (kinds r).filter (·.sentTo.isNone) = [.recv buf cnt s]) (hs : .send buf' cnt r ∈ kinds s) :
    (ofKinds b kinds).exec op σ r = store buf (load buf' cnt (σ s)) (σ r) := by
  rw [exec_filter_sends, h, ← g.roomy.inbox_eq b hs σ]
  rfl

theorem exec_recvReduce (g : KindsGood kinds n)
    (h : kinds r = [.recvReduce inoutBuf cnt s commBuf .localBuf])
    (hs : .send buf' cnt r ∈ kinds s) : (ofKinds b kinds).exec op σ r =
      compReduce op commBuf cnt inoutBuf (store commBuf (load buf' cnt (σ s)) (σ r)) := by
  rw [exec_ofKinds, ← g.roomy.inbox_eq b hs σ, h]
  rfl

end

/-! ## Schedules made of rounds -/

def SchedRound.IsGood (R : SchedRound) (n : Nat) : Prop := ∃ dest orig, R.Good n dest orig

/-- A round with room, whatever its messages. -/
def SchedRound.IsRoomy (R : SchedRound) (n : Nat) : Prop := ∃ dest orig, R.Roomy n dest orig

theorem SchedRound.IsGood.isRoomy (h : R.IsGood n) : R.IsRoomy n := by
  obtain ⟨dest, orig, g⟩ := h
  exact ⟨dest, orig, g.roomy⟩

theorem KindsRoomy.isRoomy (h : KindsRoomy kinds n) (b : Bool) : (ofKinds b kinds).IsRoomy n := ⟨_, _, h.roomy_at fun _ => b⟩

theorem ClosedEntries.closed_map {l : List SchedEntry} (h : ClosedEntries l)
    {f : SchedEntry → Async.Entry ι Chan Nat (Mem α) (List α)} (hact : ∀ e, (f e).op.isAct = e.kind.isLocal)
    (hbar : ∀ e, (f e).barrier = e.barrier) : Async.Closed (l.map f) := by
  induction l with
  | nil => trivial
  | cons a l ih =>
    rcases h with ⟨e, he, hb⟩ | h
    · -- a barrier at the end closes whatever stands before it
      cases l with
      | nil =>
        cases he
        exact ⟨.inr (.inl ((hbar a).trans hb)), trivial⟩
      | cons a' l =>
        refine ⟨.inr (.inr ⟨f e, ?_, (hbar e).trans hb⟩), ih (.inl ⟨e, he, hb⟩)⟩
        exact mem_map.mpr ⟨e, mem_of_getLast? he, rfl⟩
    · refine ⟨.inl ?_, ih (.inr fun e he => h e (mem_cons_of_mem _ he))⟩
      exact (hact a).trans (h a mem_cons_self)

theorem ClosedEntries.closed {l : List SchedEntry} (h : ClosedEntries l) (op : α → α → α) (r tag : Nat) :
    Async.Closed (l.map (·.toEntry op r tag (id : Nat → Nat))) :=
  h.closed_map (fun e => isAct_toOp op r tag id e.kind) fun _ => rfl

theorem SchedRound.Closed.closed (h : R.Closed) (op : α → α → α) (tag r : Nat) :
    Async.Closed (R.toRound op tag r) := ClosedEntries.closed (h r) op r tag

theorem raceFree_rounds (hgood : ∀ R ∈ Rs, R.IsRoomy n) (hclosed : ∀ R ∈ Rs, R.Closed) (op : α → α → α) (tag r : Nat)
    {l : List (Async.Entry Nat Chan Nat (Mem α) (List α))} (hl : RaceFree l) :
    RaceFree (Rs.flatMap (fun R => R.toRound op tag r) ++ l) := by
  induction Rs with
  | nil => exact hl
  | cons R Rs ih =>
    obtain ⟨dest, orig, g⟩ := hgood R mem_cons_self
    rw [flatMap_cons, append_assoc]
    exact (RaceFree.of_indep (g.indep op tag r id)).append
      ((hclosed R mem_cons_self).closed op tag r)
      (ih (fun R' h => hgood R' (mem_cons_of_mem _ h)) fun R' h => hclosed R' (mem_cons_of_mem _ h))

def ranksLayout : Layout Nat Nat Chan where
  rank := id
  team r := [r]
  src := Chan.src
  dst := Chan.dst
  nodup _ := nodup_singleton _
  rank_eq _ _ h := mem_singleton.mp h

theorem ranks_column (n tag : Nat) : SchedRound.Column ranksLayout n id tag :=
  ⟨fun _ => rfl, fun _ _ => rfl, fun _ _ => rfl, fun _ _ => mem_singleton.mpr rfl⟩

theorem SchedRound.toRoundAt_id (op : α → α → α) (tag : Nat) (R : SchedRound) :
    R.toRoundAt ranksLayout.rank id op tag (fun _ => id) = R.toRound op tag := funext fun _ => if_pos rfl

theorem execAll_toRound (op : α → α → α) (tag : Nat) (hroomy : ∀ R ∈ Rs, R.IsRoomy n) (σ : Nat → Mem α) :
    execAll ranksLayout (Rs.map (·.toRound op tag)) σ = execRounds op Rs σ := by
  induction Rs generalizing σ with
  | nil => rfl
  | cons R Rs ih =>
    obtain ⟨dest, orig, g⟩ := hroomy R mem_cons_self
    have hR : (R.toRound op tag).exec ranksLayout σ = R.exec op σ := by
      funext r
      rw [← R.toRoundAt_id, (ranks_column n tag).exec_toRoundAt _ op g.idle]
    rw [map_cons, execAll, execRounds, hR, ih fun R' h => hroomy R' (mem_cons_of_mem _ h)]

section

variable {n : Nat} {sched : Nat → Sched} {Rs : List SchedRound} (hroomy : ∀ R ∈ Rs, R.IsRoomy n)
  (hsched : ∀ r < n, (sched r).entries = Rs.flatMap (· r))

include hroomy hsched

/-- **Schedules in rounds complete and compute their rounds**, if they do not race. -/
theorem completes_of_roomy (op : α → α → α) (tag : Nat) (eager : Nat → Nat → Bool) (mem : Nat → Mem α)
    (hrace : ∀ r, RaceFree (Rs.flatMap fun R => R.toRound op tag r)) :
    (schedNet op n tag eager sched).Completes mem fun s => ∀ r, s.mem r = execRounds op Rs mem r := by
  have hprog : ∀ r, (schedNet op n tag eager sched).prog r = (Rs.map (·.toRound op tag)).flatMap (· r) := by
    intro r
    show (if r < n then _ else _) = _
    rw [flatMap_map]
    split
    next hr =>
      rw [hsched r hr, map_flatMap]
      rfl
    next hr =>
      refine (flatMap_eq_nil_iff.mpr fun R hR => ?_).symm
      obtain ⟨dest, orig, g⟩ := hroomy R hR
      show (R r).map _ = []
      rw [g.idle r (not_lt.mp hr), map_nil]
  -- there are neither meetings nor child tasks
  have hplain : ∀ x o, (schedNet op n tag eager sched).op x = some o → (∀ k, o ≠ .sync k) ∧ ∀ t, o ≠ .sub t := by
    intro x o hop
    obtain ⟨e, he, rfl⟩ := Option.map_eq_some_iff.mp hop
    have hmem := mem_of_getElem? he
    rw [hprog, flatMap_map] at hmem
    obtain ⟨R, hR, hmem⟩ := mem_flatMap.mp hmem
    obtain ⟨⟨kind, b⟩, hkind, rfl⟩ := mem_map.mp hmem
    obtain ⟨dest, orig, g⟩ := hroomy R hR
    have h := g.plain _ _ hkind
    cases kind with
    | sync k => exact absurd rfl (h.1 k)
    | subsched i => exact absurd rfl (h.2 i)
    | _ => exact ⟨nofun, nofun⟩
  have hin : (schedNet op n tag eager sched).InRounds ranksLayout mem (Rs.map (·.toRound op tag)) := by
    refine ⟨fun _ => rfl, hprog, fun R hR => ?_, fun x y _ hy hrank hround => ?_, fun x y k hx => ?_, fun p t hp => ?_,
      fun p t hp => ?_, fun _ => 0, fun p t hp => ?_⟩
    · obtain ⟨R, hmem, rfl⟩ := mem_map.mp hR
      obtain ⟨dest, orig, g⟩ := hroomy R hmem
      rw [← R.toRoundAt_id]
      exact g.toRoundAt_good (ranks_column n tag) _ op
    · obtain ⟨t, i⟩ := x
      obtain ⟨t', j⟩ := y
      obtain rfl : t = t' := hrank
      have hfree : RaceFree ((schedNet op n tag eager sched).prog t) := by
        rw [hprog, flatMap_map]
        exact hrace t
      exact (hfree.apart (lt_of_roundOf_lt hround) hy).imp_right .inl
    · exact absurd rfl ((hplain _ _ hx).1 k)
    · exact absurd rfl ((hplain _ _ hp).2 t)
    · exact absurd rfl ((hplain _ _ hp).2 t)
    · exact absurd rfl ((hplain _ _ hp).2 t)
  refine hin.completes.imp fun s hs r => ?_
  rw [hs r, execAll_toRound op tag hroomy]

end

section

variable {n : Nat} {sched : Nat → Sched} {Rs : List SchedRound} (hgood : ∀ R ∈ Rs, R.IsGood n)
  (hsched : ∀ r < n, (sched r).entries = Rs.flatMap (· r))

include hgood hsched

theorem completes_of_rounds (op : α → α → α) (tag : Nat) (eager : Nat → Nat → Bool) (mem : Nat → Mem α)
    (hrace : ∀ r, RaceFree (Rs.flatMap fun R => R.toRound op tag r)) :
    (schedNet op n tag eager sched).Completes mem fun s => ∀ r, s.mem r = execRounds op Rs mem r :=
  completes_of_roomy (fun R hR => (hgood R hR).isRoomy) hsched op tag eager mem hrace

/-- **Every send has its receive.** -/
theorem messagesMatch_of_rounds : MessagesMatch n sched := by
  have hcnts : ∀ s d, sendCnts (Rs.flatMap (· s)) d = recvCnts (Rs.flatMap (· d)) s := by
    intro s d
    clear hsched
    induction Rs with
    | nil => rfl
    | cons R Rs ih =>
      obtain ⟨dest, orig, g⟩ := hgood R mem_cons_self
      rw [flatMap_cons, flatMap_cons, sendCnts, recvCnts, filterMap_append, filterMap_append]
      exact congrArg₂ (· ++ ·) (g.cnts_eq s d) (ih fun R' h => hgood R' (mem_cons_of_mem _ h))
  have hidle : ∀ p, n ≤ p → Rs.flatMap (· p) = [] := by
    intro p hp
    refine flatMap_eq_nil_iff.mpr fun R hR => ?_
    obtain ⟨dest, orig, g⟩ := hgood R hR
    exact g.idle p hp
  refine ⟨fun s hs d hd => ?_, fun r hr p hp => ?_⟩
  · rw [hsched s hs, hsched d hd, hcnts]
  · rw [hsched r hr, hcnts, ← hcnts p r, hidle p hp]
    exact ⟨rfl, rfl⟩

end

theorem exists_scheds {entries : Nat → List SchedEntry} (hbuild : ∀ r < n, ∃ s, build r = some s ∧ s.entries = entries r) :
    ∃ sched : Nat → Sched, ∀ r < n, build r = some (sched r) ∧ (sched r).entries = entries r := by
  have hall : ∀ r, ∃ s, r < n → build r = some s ∧ s.entries = entries r := by
    intro r
    by_cases hr : r < n
    · obtain ⟨s, hs⟩ := hbuild r hr
      exact ⟨s, fun _ => hs⟩
    · exact ⟨.new 0, fun h => absurd h hr⟩
  choose sched hsched using hall
  exact ⟨sched, hsched⟩

/-- **Builders whose schedules are rounds**: the schedules complete, compute their rounds, and match their
messages. -/
theorem contract_of_rounds (hbuild : ∀ r < n, ∃ s, build r = some s ∧ s.entries = Rs.flatMap (· r))
    (hgood : ∀ R ∈ Rs, R.IsGood n) (hrace : ∀ r, RaceFree (Rs.flatMap fun R => R.toRound op tag r))
    (eager : Nat → Nat → Bool) (mem : Nat → Mem α) : ∃ sched : Nat → Sched, (∀ r < n, build r = some (sched r)) ∧
      ((schedNet op n tag eager sched).Completes mem fun s => ∀ r, s.mem r = execRounds op Rs mem r) ∧
      MessagesMatch n sched := by
  obtain ⟨sched, hsched⟩ := exists_scheds hbuild
  exact ⟨sched, fun r hr => (hsched r hr).1,
    completes_of_rounds hgood (fun r hr => (hsched r hr).2) op tag eager mem hrace,
    messagesMatch_of_rounds hgood fun r hr => (hsched r hr).2⟩

theorem completes_of_closed (hroomy : ∀ R ∈ Rs, R.IsRoomy n) (hclosed : ∀ R ∈ Rs, R.Closed)
    (hsched : ∀ r < n, (sched r).entries = Rs.flatMap (· r)) (op : α → α → α) (tag : Nat) (eager : Nat → Nat → Bool)
    (mem : Nat → Mem α) : (schedNet op n tag eager sched).Completes mem fun s => ∀ r, s.mem r = execRounds op Rs mem r := by
  apply completes_of_roomy hroomy hsched op tag eager mem
  intro r
  rw [← append_nil (Rs.flatMap _)]
  exact raceFree_rounds hroomy hclosed op tag r trivial

theorem exec_of_completes (hroomy : ∀ R ∈ Rs, R.IsRoomy n) (hclosed : ∀ R ∈ Rs, R.Closed)
    (hsched : ∀ r < n, (sched r).entries = Rs.flatMap (· r)) {eager : Nat → Nat → Bool} {mem : Nat → Mem α}
    {Q : (Nat → Mem α) → Prop} (h : (schedNet op n tag eager sched).Completes mem fun s => Q s.mem) :
    Q (execRounds op Rs mem) := by
  obtain ⟨s, hreach, hstop, hmem⟩ := (completes_of_closed hroomy hclosed hsched op tag eager mem).exists_run
  have hQ := (h.final s hreach hstop).2
  rwa [show s.mem = execRounds op Rs mem from funext hmem] at hQ

theorem contract_of_roomy (hbuild : ∀ r < n, ∃ s, build r = some s ∧ s.entries = Rs.flatMap (· r))
    (hroomy : ∀ R ∈ Rs, R.IsRoomy n) (hclosed : ∀ R ∈ Rs, R.Closed) (op : α → α → α) (tag : Nat)
    (eager : Nat → Nat → Bool) (mem : Nat → Mem α) : ∃ sched : Nat → Sched, (∀ r < n, build r = some (sched r)) ∧
      (schedNet op n tag eager sched).Completes mem fun s => ∀ r, s.mem r = execRounds op Rs mem r := by
  obtain ⟨sched, hsched⟩ := exists_scheds hbuild
  exact ⟨sched, fun r hr => (hsched r hr).1,
    completes_of_closed hroomy hclosed (fun r hr => (hsched r hr).2) op tag eager mem⟩

theorem raceFree_of_closed (hgood : ∀ R ∈ Rs, R.IsGood n) (hclosed : ∀ R ∈ Rs, R.Closed) (op : α → α → α)
    (tag r : Nat) : RaceFree (Rs.flatMap fun R => R.toRound op tag r) := by
  rw [← append_nil (Rs.flatMap _)]
  exact raceFree_rounds (fun R hR => (hgood R hR).isRoomy) hclosed op tag r trivial

theorem raceFree_of_closed_last (hgood : ∀ R' ∈ Rs ++ [R], R'.IsGood n)
    (hclosed : ∀ R' ∈ Rs, R'.Closed) (op : α → α → α) (tag r : Nat) :
    RaceFree ((Rs ++ [R]).flatMap fun R' => R'.toRound op tag r) := by
  obtain ⟨dest, orig, g⟩ := hgood R (mem_append_right _ (mem_singleton.mpr rfl))
  rw [flatMap_append, flatMap_singleton]
  exact raceFree_rounds (fun R' h => (hgood R' (mem_append_left _ h)).isRoomy) hclosed op tag r
    (RaceFree.of_indep (g.roomy.indep op tag r id))

theorem contract_of_nothing (op : α → α → α) (tag : Nat) (eager : Nat → Nat → Bool) (mem : Nat → Mem α) :
    (schedNet op n tag eager fun _ => .new 0).Completes mem fun s => ∀ r, s.mem r = mem r :=
  have hgood : ∀ R ∈ ([] : List SchedRound), R.IsGood n := nofun
  completes_of_rounds hgood (fun _ _ => rfl) op tag eager mem fun _ => trivial

end OneCcl
