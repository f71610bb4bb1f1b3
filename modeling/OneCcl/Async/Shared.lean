import OneCcl.Async.Channel

/-!
# Channels that several tasks use

A channel may be used by several tasks of a rank, when the net keeps them from using it at the same time. Then there is
still one order in which its sends (its receives) are posted, in every run: a list of them, each of which depends on those
before it (`Net.Line`). `Reach.posted_line` says that what is posted is the beginning of that list, and `Reach.line_send`
that a receive gets the send at its own place.
-/

namespace Async

open List Function

variable {ι ρ χ κ M δ : Type}

namespace Net

/-- The entries that satisfy `p`, in the order every run keeps. -/
structure Line (N : Net ι ρ χ κ M δ) (p : Op ι χ κ M δ → Bool) (l : List (ι × Nat)) : Prop where
  mem : ∀ x, x ∈ l ↔ ∃ o, N.op x = some o ∧ p o = true
  nodup : l.Nodup
  order : l.Pairwise N.Dep

/-- The beginning of a line that a state has started. -/
structure OnLine (s : State ι ρ χ M δ) (l posted : List (ι × Nat)) : Prop where
  isPrefix : posted <+: l
  started : ∀ x ∈ posted, x.2 < s.started x.1
  all : ∀ x ∈ l, x.2 < s.started x.1 → x ∈ posted

variable {N : Net ι ρ χ κ M δ} {s : State ι ρ χ M δ} {c : χ} {ls lr : List (ι × Nat)} {mem : ρ → M}

theorem OnLine.push [DecidableEq ι] {p : Op ι χ κ M δ → Bool} {l posted : List (ι × Nat)} (hl : N.Line p l)
    {s' : State ι ρ χ M δ} (h : OnLine s l posted) {t : ι} {o : Op ι χ κ M δ} (hop : N.op (t, s.started t) = some o)
    (hs : s'.started = update s.started t (s.started t + 1))
    (hdone : ∀ y, N.Dep y (t, s.started t) → y ≠ (t, s.started t) → y.2 < s.started y.1) :
    OnLine s' l (posted ++ if p o then [(t, s.started t)] else []) := by
  have hlive : ∀ x : ι × Nat, x.2 < s'.started x.1 ↔ x.2 < s.started x.1 ∨ x = (t, s.started t) := by
    rintro ⟨u, i⟩
    rw [hs]
    by_cases hu : u = t
    · subst hu
      simp only [update_self, Prod.mk.injEq, true_and]
      omega
    · simp only [update_of_ne hu, Prod.mk.injEq, hu, false_and, or_false]
  by_cases hp : p o = true
  · rw [if_pos hp]
    have hx : (t, s.started t) ∈ l := (hl.mem _).mpr ⟨o, hop, hp⟩
    have hnew : (t, s.started t) ∉ posted := fun h' => Nat.lt_irrefl _ (h.started _ h')
    obtain ⟨rest, rfl⟩ := h.isPrefix
    -- the entry is the first that is not posted yet
    obtain ⟨rest', rfl⟩ : ∃ rest', rest = (t, s.started t) :: rest' := by
      cases rest with
      | nil => exact absurd (mem_append.mp hx) (by simp [hnew])
      | cons y rest' =>
        by_cases hy : y = (t, s.started t)
        · exact ⟨rest', by rw [hy]⟩
        · have hmem : (t, s.started t) ∈ rest' := by
            rcases mem_append.mp hx with hx | hx
            · exact absurd hx hnew
            · exact (mem_cons.mp hx).resolve_left (Ne.symm hy)
          have hdep : N.Dep y (t, s.started t) :=
            rel_of_pairwise_cons (pairwise_append.mp hl.order).2.1 hmem
          have hposted : y ∈ posted := h.all y (mem_append_right _ mem_cons_self) (hdone y hdep hy)
          exact absurd rfl ((nodup_append.mp hl.nodup).2.2 y hposted y mem_cons_self)
    refine ⟨⟨rest', by simp⟩, ?_, ?_⟩
    · intro x hx'
      rw [hlive]
      rcases mem_append.mp hx' with hx' | hx'
      · exact .inl (h.started x hx')
      · exact .inr (mem_singleton.mp hx')
    · intro x hx' hlt
      rcases (hlive x).mp hlt with hlt | rfl
      · exact mem_append_left _ (h.all x hx' hlt)
      · exact mem_append_right _ mem_cons_self
  · rw [if_neg hp, append_nil]
    have hnot : (t, s.started t) ∉ l := by
      intro hx
      obtain ⟨o', hop', hp'⟩ := (hl.mem _).mp hx
      rw [hop] at hop'
      exact hp (Option.some.inj hop' ▸ hp')
    refine ⟨h.isPrefix, fun x hx => (hlive x).mpr (.inl (h.started x hx)), fun x hx hlt => ?_⟩
    exact h.all x hx (((hlive x).mp hlt).resolve_right fun he => hnot (he ▸ hx))

variable [DecidableEq ι] [DecidableEq ρ] [DecidableEq χ]

/-- **What is posted on a channel is the beginning of its lines.** -/
theorem Reach.posted_line (hls : N.Line (Op.sendsOn c) ls) (hlr : N.Line (Op.recvsOn c) lr) (h : N.Reach mem s) :
    OnLine s ls (s.sends c) ∧ OnLine s lr (s.recvs c) := by
  have hnil : ∀ l : List (ι × Nat), OnLine (State.init mem : State ι ρ χ M δ) l [] := fun l =>
    ⟨List.nil_prefix, forall_mem_nil _, fun _ _ hlt => absurd hlt (Nat.not_lt_zero _)⟩
  refine Reach.invariant (I := fun s => OnLine s ls (s.sends c) ∧ OnLine s lr (s.recvs c)) ⟨hnil ls, hnil lr⟩ ?_ h
  intro s s' hr hi hstep
  rcases hstep.posts with ⟨h1, h2, h3⟩ | ⟨t, o, hop, h1, h2, h3⟩
  · rw [h2, h3]
    have same : ∀ {l posted : List (ι × Nat)}, OnLine s l posted → OnLine s' l posted := fun h' =>
      ⟨h'.isPrefix, by rw [h1]; exact h'.started, by rw [h1]; exact h'.all⟩
    exact ⟨same hi.1, same hi.2⟩
  · have hdone : ∀ y, N.Dep y (t, s.started t) → y ≠ (t, s.started t) → y.2 < s.started y.1 := by
      rintro ⟨u, i⟩ hdep hne
      have hr' : N.Reach mem s' := hr.tail hstep
      have hlive : s'.stageAt (t, s.started t) ≠ .idle := by
        refine hr'.ordered.live t _ ?_
        rw [h1, update_self]
        exact Nat.lt_succ_self _
      have hlt : i < s'.started u := by
        refine State.lt_started ?_
        rw [hr'.dep hdep hlive]
        exact Stage.noConfusion
      rw [h1] at hlt
      by_cases hu : u = t
      · subst hu
        rw [update_self] at hlt
        exact Nat.lt_of_le_of_ne (Nat.le_of_lt_succ hlt) fun hi => hne (Prod.ext rfl hi)
      · rwa [update_of_ne hu] at hlt
    rw [h2 c, h3 c]
    exact ⟨hi.1.push hls hop h1 hdone, hi.2.push hlr hop h1 hdone⟩

/-- **A receive that was delivered got the send at its own place of the line**, which was read before. -/
theorem Reach.line_send (hls : N.Line (Op.sendsOn c) ls)
    (hlr : N.Line (Op.recvsOn c) lr) (h : N.Reach mem s) {k : Nat} {x y : ι × Nat}
    (hx : ls[k]? = some x) (hy : lr[k]? = some y) (hp : Passed s y) : Passed s x := by
  obtain ⟨hs, hr⟩ := h.posted_line hls hlr
  obtain ⟨o, hop, ho⟩ := (hlr.mem y).mp (mem_of_getElem? hy)
  cases o with
  | recv c' fits store finish =>
    obtain rfl : c' = c := of_decide_eq_true ho
    obtain ⟨x', ⟨k', hx', hy'⟩, hpx⟩ := h.carried.sent y c' fits store finish hop hp
    -- `y` is at one place of its line only
    obtain ⟨hk, hlk⟩ := List.getElem?_eq_some_iff.mp hy
    obtain ⟨hk', hlk'⟩ := List.getElem?_eq_some_iff.mp (getElem?_of_initial hr.isPrefix hy')
    obtain rfl : k = k' := (List.Nodup.getElem_inj_iff hlr.nodup).mp (hlk.trans hlk'.symm)
    rw [getElem?_of_initial hs.isPrefix hx'] at hx
    exact Option.some.inj hx ▸ hpx
  | act _ => cases ho
  | send _ _ => cases ho
  | sync _ => cases ho
  | sub _ => cases ho

end Net

end Async
