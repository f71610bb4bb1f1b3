import OneCcl.Progress.SyncRun

/-!
# No partial schedule passes a sync point early

The invariant of the partial schedules holds at every step of every run. With what is known about barriers it gives the
meeting: a schedule gets past its `SYNC` only when the `SYNC` is complete, so the counter was at zero, so all schedules had
visited, each with everything before its own `SYNC` complete.
-/

namespace OneCcl

open CclSched List Function PartEntry PartsRun MasterSched

open Option (ite_none_right_eq_some)

variable {τ : Type} {n : Nat} {skel : Nat → List (Bool × EntryExecMode × Option (PartOp τ × Bool))} {order : List Nat}
  {pos : Nat → Nat → Nat} {s s' : PartsRun τ}

/-! ### The phases -/

theorem PartsInv.start (h : PartsInv n skel order pos s) (hs : s.step n .start = some s') :
    PartsInv n skel order pos s' := by
  obtain ⟨hphase, hs⟩ := ite_none_right_eq_some.mp hs
  cases hs
  refine ⟨h.good, h.skeleton, h.regular, fun c hc => ?_, fun c _ hlt => absurd hlt (Nat.not_lt_zero _)⟩
  rcases hphase with hstop | ⟨-, hfin⟩
  · have hpc := h.phase
    simp only [PhaseInv, hstop] at hpc
    exact .inl (hpc c hc)
  · exact .inr (hfin c hc)

theorem PartsInv.renew (hl : PartsLayout n skel order pos) (h : PartsInv n skel order pos s)
    (hs : s.step n .renew = some s') : PartsInv n skel order pos s' := by
  simp only [PartsRun.step] at hs
  split at hs
  next d hphase =>
    obtain ⟨hd, hs⟩ := ite_none_right_eq_some.mp hs
    cases hs
    have hprep := h.phase
    simp only [PhaseInv, hphase] at hprep
    obtain ⟨hren, hbefore⟩ := hprep
    have hself : (s.renewPart n d).parts d = (s.parts d).renew := update_self ..
    have hother : ∀ c, c ≠ d → (s.renewPart n d).parts c = s.parts c := fun c hne => update_of_ne hne ..
    have hstatus : ∀ obj ∈ order, statusAt (s.parts d).renew.entries (pos d obj) = .notStarted := by
      intro obj hobj
      have hreg := h.regular d hd obj hobj
      simp only [CclSched.renew, statusAt_reset]
      cases hst : statusAt (s.parts d).entries (pos d obj) <;> first | rfl | exact absurd hst hreg
    have hcounter : ∀ obj ∈ order, (s.renewPart n d).counter obj = n := by
      intro obj hobj
      obtain ⟨e, he, -, -, hb⟩ := hl.entry hd hobj (h.skeleton d hd)
      refine if_pos (any_eq_true.mpr ⟨e, mem_of_getElem? he, ?_⟩)
      simp [syncObj, hb]
    refine ⟨?_, ?_, ?_, ?_, ?_⟩
    · intro c hc
      by_cases hcd : c = d
      · rw [hcd, hself]
        exact (h.good d hd).good_renew (hren d hd)
      · rw [hother c hcd]
        exact h.good c hc
    · intro c hc
      by_cases hcd : c = d
      · rw [hcd, hself, skeleton_renew]
        exact h.skeleton d hd
      · rw [hother c hcd]
        exact h.skeleton c hc
    · intro c hc obj hobj
      by_cases hcd : c = d
      · rw [hcd, hself, hstatus obj hobj]
        exact EntryStatus.noConfusion
      · rw [hother c hcd]
        exact h.regular c hc obj hobj
    · intro c hc
      by_cases hcd : c = d
      · rw [hcd, hself]
        exact .inl rfl
      · rw [hother c hcd]
        exact hren c hc
    · intro c hc hlt
      by_cases hcd : c = d
      · refine ⟨fun k => ?_, fun obj hobj => ⟨?_, hcounter obj hobj⟩⟩
        · rw [hcd]
          show update s.shouldVisit d (fun _ => true) d k = true
          rw [update_self]
        · rw [hcd, hself]
          exact hstatus obj hobj
      · obtain ⟨hvisit, hrest⟩ := hbefore c hc (by omega)
        refine ⟨fun k => ?_, fun obj hobj => ⟨?_, hcounter obj hobj⟩⟩
        · exact (congrFun (update_of_ne hcd ..) k).trans (hvisit k)
        · rw [hother c hcd]
          exact (hrest obj hobj).1
  next => cases hs

theorem PartsInv.go (hn : 0 < n) (h : PartsInv n skel order pos s) (hs : s.step n .go = some s') :
    PartsInv n skel order pos s' := by
  obtain ⟨hphase, hs⟩ := ite_none_right_eq_some.mp hs
  cases hs
  have hprep := h.phase
  simp only [PhaseInv, hphase] at hprep
  obtain ⟨-, hall⟩ := hprep
  refine ⟨h.good, h.skeleton, h.regular, fun obj hobj => ?_⟩
  have hcounter := ((hall 0 hn hn).2 obj hobj).2
  unfold SyncCounted
  rw [hcounter]
  refine .init (fun c hc hcomp => ?_) fun c hc => (hall c hc hc).1 _
  rw [((hall c hc hc).2 obj hobj).1] at hcomp
  cases hcomp

/-! ### A visit -/

variable {c obj j : Nat} {a : SchedAction}

theorem PartsInv.visitSync (hl : PartsLayout n skel order pos) (h : PartsInv n skel order pos s)
    (hs : s.step n (.visitSync c) = some s') : PartsInv n skel order pos s' := by
  obtain ⟨⟨hrun, hc⟩, hs⟩ := ite_none_right_eq_some.mp hs
  unfold PartsRun.visitSync at hs
  split at hs
  next k hpc =>
    split at hs
    next obj hobj =>
      obtain ⟨⟨-, hidx, hshould⟩, hs⟩ := ite_none_right_eq_some.mp hs
      cases hs
      obtain ⟨hmem, rfl⟩ := hl.pos_of_syncAt hc (h.skeleton c hc) hobj
      have hcount := h.phase
      simp only [PhaseInv, hrun] at hcount
      refine ⟨h.good, h.skeleton, h.regular, ?_⟩
      simp only [PhaseInv, hrun]
      intro obj' hobj'
      have hc' := hcount obj' hobj'
      unfold SyncCounted at hc' ⊢
      by_cases hoo : obj' = obj
      · subst hoo
        have hflag : (fun d => update s.shouldVisit c (update (s.shouldVisit c) (pos c obj') false) d
            (pos d obj')) = update (fun d => s.shouldVisit d (pos d obj')) c false := by
          funext d
          by_cases hdc : d = c
          · rw [hdc, update_self, update_self, update_self]
          · rw [update_of_ne hdc, update_of_ne hdc]
        dsimp only
        rw [update_self, hflag]
        exact hc'.visit hc hshould fun i hi => (h.good c hc).here.inv.core.leading i (hidx ▸ hi)
      · -- the flags of the other sync objects are as they were
        have hne : pos c obj' ≠ pos c obj := fun heq =>
          hoo (Option.some.inj ((hl.syncAt_pos hc hobj' (h.skeleton c hc)).symm.trans (heq ▸ hobj)))
        have hflag : (fun d => update s.shouldVisit c (update (s.shouldVisit c) (pos c obj) false) d
            (pos d obj')) = fun d => s.shouldVisit d (pos d obj') := by
          funext d
          by_cases hdc : d = c
          · rw [hdc, update_self, update_of_ne hne]
          · rw [update_of_ne hdc]
        dsimp only
        rw [update_of_ne hoo, hflag]
        exact hc'
    next => cases hs
  next => cases hs

/-! ### A step of one partial schedule -/

theorem sync_finish {body b : EntryBody (PartOp τ)} {x : PartOp τ} {f f' g : FlowControl} {late : Bool}
    {c o o' st : EntryStatus} (hb : body = .op x none) (hr : body.result f late c o = some (f', b, o'))
    (hx : finishEntry f' .regular o' = some (g, st)) : st ≠ .completeOnce ∧ (st.isCompleted → o = .complete) := by
  rw [hb] at hr
  obtain ⟨hres, hr⟩ := ite_none_right_eq_some.mp hr
  cases hr
  unfold finishEntry at hx
  split at hx
  next ho =>
    obtain ⟨f'', -, hst⟩ := Option.map_eq_some_iff.mp hx
    cases hst
    exact ⟨nofun, fun _ => ho⟩
  next ho =>
    cases hx
    cases o <;> cases late <;> simp_all [EntryStatus.isCompleted, EntryStatus.startResult, EntryStatus.updateResult]

theorem counter_of_mayReport {k : Nat} {x : EntryStatus} (hpc : (s.parts c).pc = .inside k)
    (hobj : syncAt (s.parts c) k = some obj) (h : s.mayReport c (.loop (.ret x .complete)) = true) : s.counter obj = 0 := by
  simp only [mayReport, hpc, hobj] at h
  split at h
  · have hrep := (of_decide_eq_true h).2
    by_contra hne
    rw [if_neg hne] at hrep
    cases hrep
  · cases of_decide_eq_true h

/-- A step completes no `SYNC` before the counter of its object is zero. -/
theorem part_step {t : OpSched (PartOp τ)} (hl : PartsLayout n skel order pos) (hc : c < n)
    (hgood : (s.parts c).Everywhere Good) (hskel : (s.parts c).skeleton = skel c) (ha : a ≠ .renew)
    (hrep : s.mayReport c a = true) (ht : (s.parts c).step a = some t) :
    (∀ i, (statusAt (s.parts c).entries i).isCompleted → (statusAt t.entries i).isCompleted) ∧
      ∀ obj ∈ order, (statusAt (s.parts c).entries (pos c obj) ≠ .completeOnce →
          statusAt t.entries (pos c obj) ≠ .completeOnce) ∧
        ((statusAt t.entries (pos c obj)).isCompleted →
          (statusAt (s.parts c).entries (pos c obj)).isCompleted ∨ s.counter obj = 0) := by
  cases a with
  | renew => exact absurd rfl ha
  | call =>
    obtain ⟨-, hs⟩ := ite_none_right_eq_some.mp ht
    cases hs
    exact ⟨fun _ h => h, fun _ _ => ⟨id, .inl⟩⟩
  | loop a =>
    refine ⟨fun i h => completed_of_act hgood.here.inv ht h, fun obj hobj => ?_⟩
    have htskel : t.skeleton = skel c := (skeleton_of_act ht).trans hskel
    obtain ⟨e', he', -⟩ := hl.entry hc hobj htskel
    obtain ⟨e, he, hstep⟩ := entry_of_act ht he'
    obtain ⟨e₁, he₁, -, hmode, hb⟩ := hl.entry hc hobj hskel
    cases he.symm.trans he₁
    rw [statusAt_of_get he, statusAt_of_get he']
    rcases hstep.status with hst | ⟨x, o, o', f, f', rfl, hpc, hr, hx⟩
    · rw [hst]
      exact ⟨id, .inl⟩
    · rw [hmode] at hx
      obtain ⟨honce, hcomp⟩ := sync_finish hb hr hx
      refine ⟨fun _ => honce, fun h => .inr ?_⟩
      obtain rfl := hcomp h
      exact counter_of_mayReport hpc (hl.syncAt_pos hc hobj hskel) hrep

theorem PartsInv.part (hl : PartsLayout n skel order pos) (h : PartsInv n skel order pos s)
    (hs : s.step n (.part c a) = some s') : PartsInv n skel order pos s' := by
  obtain ⟨⟨hrun, hc, ha, hrep⟩, hs⟩ := ite_none_right_eq_some.mp hs
  obtain ⟨t, ht, rfl⟩ := Option.map_eq_some_iff.mp hs
  obtain ⟨hstay, hsync⟩ := part_step hl hc (h.good c hc) (h.skeleton c hc) ha hrep ht
  have hcount := h.phase
  simp only [PhaseInv, hrun] at hcount
  have hself : update s.parts c t c = t := update_self ..
  have hother : ∀ d, d ≠ c → update s.parts c t d = s.parts d := fun d hne => update_of_ne hne ..
  refine ⟨?_, ?_, ?_, ?_⟩
  · intro d hd
    by_cases hdc : d = c
    · simp only [hdc, hself]
      exact (h.good c hc).good_step ht
    · simp only [hother d hdc]
      exact h.good d hd
  · intro d hd
    by_cases hdc : d = c
    · simp only [hdc, hself]
      exact (skeleton_of_step ht).trans (h.skeleton c hc)
    · simp only [hother d hdc]
      exact h.skeleton d hd
  · intro d hd obj hobj
    by_cases hdc : d = c
    · simp only [hdc, hself]
      exact (hsync obj hobj).1 (h.regular c hc obj hobj)
    · simp only [hother d hdc]
      exact h.regular d hd obj hobj
  · simp only [PhaseInv, hrun]
    intro obj hobj
    have hold := hcount obj hobj
    refine ⟨hold.count, fun d hd hfalse i hi => ?_, fun d hd hcomp => ?_⟩
    · have hbefore := hold.visited d hd hfalse i hi
      by_cases hdc : d = c
      · simp only [hdc, hself]
        exact hstay i (hdc ▸ hbefore)
      · simp only [hother d hdc]
        exact hbefore
    · by_cases hdc : d = c
      · simp only [hdc, hself] at hcomp
        rcases (hsync obj hobj).2 hcomp with hcomp | hzero
        · exact hold.done c hc hcomp
        · exact hzero
      · simp only [hother d hdc] at hcomp
        exact hold.done d hd hcomp

/-! ### Runs -/

/-- Every step of the partial schedules keeps the invariant. -/
theorem PartsInv.step (hl : PartsLayout n skel order pos) (hn : 0 < n) (h : PartsInv n skel order pos s) {a : PartsAction}
    (hs : s.step n a = some s') : PartsInv n skel order pos s' := by
  cases a with
  | start => exact h.start hs
  | renew => exact h.renew hl hs
  | go => exact h.go hn hs
  | visitSync c => exact h.visitSync hl hs
  | part c a => exact h.part hl hs

theorem PartsInv.runs (hl : PartsLayout n skel order pos) (hn : 0 < n) (h : PartsInv n skel order pos s)
    (hrun : s.Runs n s') : PartsInv n skel order pos s' := by
  induction hrun with
  | refl => exact h
  | tail _ hstep ih =>
    obtain ⟨a, ha⟩ := hstep
    exact ih.step hl hn ha

theorem PartsInv.meet (hl : PartsLayout n skel order pos) (h : PartsInv n skel order pos s) {p q a b : Nat} (hp : p < n)
    (hq : q < n) (ha : syncAt (s.parts p) a = some obj) (hb : syncAt (s.parts q) b = some obj) (haj : a < j)
    (hj : (s.parts p).Attempts j) : ∀ i < b, (statusAt (s.parts q).entries i).isCompleted := by
  obtain ⟨hobj, rfl⟩ := hl.pos_of_syncAt hp (h.skeleton p hp) ha
  obtain ⟨-, rfl⟩ := hl.pos_of_syncAt hq (h.skeleton q hq) hb
  obtain ⟨e, he, hbar, -, -⟩ := hl.entry hp hobj (h.skeleton p hp)
  have hbarrier : barrierAt (s.parts p).entries (pos p obj) := (barrierAt_of_get he).trans hbar
  have hcomp := (h.good p hp).here.inv.inOrder.barrier j hj _ haj hbarrier _ (le_rfl)
  have hphase := h.phase
  unfold PhaseInv at hphase
  -- nobody is in a call unless the schedules run
  split at hphase
  next =>
    rw [Attempts, hphase p hp] at hj
    rcases hj with hj | hj <;> cases hj
  next =>
    rcases hphase.1 p hp with hready | ⟨hleft, -⟩
    · rw [Attempts, hready] at hj
      rcases hj with hj | hj <;> cases hj
    · rw [Attempts, hleft] at hj
      rcases hj with hj | hj <;> cases hj
  next => exact (hphase obj hobj).before hp hcomp hq

/-! ### From the builder to the runs -/

/-- The entries of a partial schedule that was built. -/
def MasterSched.entriesOf (b : MasterSched τ) (c : Nat) : List (PartEntry τ) :=
  (b.subscheds[c]?.map PartSched.entries).getD []

/-- Where the `SYNC` of a sync object is. -/
def MasterSched.posOf (b : MasterSched τ) (c obj : Nat) : Nat :=
  (b.entriesOf c).findIdx fun e => syncObj e = some obj

theorem index_unique {α β : Type} {f : α → Option β} {l : List α} (h : (l.filterMap f).Nodup) {i : Nat} {x y : α}
    {z : β} (hi : l[i]? = some x) (hj : l[j]? = some y) (hx : f x = some z) (hy : f y = some z) : i = j := by
  have hpair := pairwise_filterMap.mp h
  have hne : ∀ {i j : Nat} {x y : α}, l[i]? = some x → l[j]? = some y → f x = some z → f y = some z → ¬ i < j := by
    intro i j x y hi hj hx hy hlt
    obtain ⟨hil, rfl⟩ := List.getElem?_eq_some_iff.mp hi
    obtain ⟨hjl, rfl⟩ := List.getElem?_eq_some_iff.mp hj
    exact pairwise_iff_getElem.mp hpair i j hil hjl hlt z hx z hy rfl
  have hij := hne hi hj hx hy
  have hji := hne hj hi hy hx
  omega

section Built

variable {b : MasterSched τ} {c obj : Nat}

theorem MasterSched.Built.part (h : b.Built n order) (hc : c < n) :
    (∀ e ∈ b.entriesOf c, PartEntry.New e) ∧ (b.entriesOf c).filterMap syncObj = order := by
  have hlt : c < b.subscheds.length := h.length.symm ▸ hc
  have hp := h.parts _ (getElem_mem hlt)
  have hentries : b.entriesOf c = (b.subscheds[c]).entries := by
    rw [entriesOf, getElem?_eq_getElem hlt]
    rfl
  rw [hentries]
  exact ⟨hp.entries, hp.syncs⟩

theorem MasterSched.Built.at_posOf (h : b.Built n order) (hc : c < n) (hobj : obj ∈ order) :
    (b.entriesOf c)[b.posOf c obj]? = some (.newSync obj) := by
  obtain ⟨hnew, hsyncs⟩ := h.part hc
  rw [← hsyncs] at hobj
  obtain ⟨e, he, hsync⟩ := mem_filterMap.mp hobj
  have hlt : b.posOf c obj < (b.entriesOf c).length :=
    findIdx_lt_length_of_exists ⟨e, he, decide_eq_true hsync⟩
  have hfound : decide (syncObj (b.entriesOf c)[b.posOf c obj] = some obj) = true :=
    @findIdx_getElem _ (fun e => decide (syncObj e = some obj)) (b.entriesOf c) hlt
  rw [getElem?_eq_getElem hlt, (hnew _ (getElem_mem hlt)).sync obj (of_decide_eq_true hfound)]

theorem MasterSched.Built.layout (h : b.Built n order) (credits : Nat → Nat) :
    PartsLayout n (fun c => ((PartsRun.new n b credits).parts c).skeleton) order b.posOf := by
  have hget : ∀ c k, ((PartsRun.new n b credits).parts c).skeleton[k]? = (b.entriesOf c)[k]?.map CclEntry.shape :=
    fun c k => getElem?_skeleton
  refine ⟨fun c hc obj hobj => ?_, fun c hc k bar m obj x hk => ?_⟩
  · rw [hget, h.at_posOf hc hobj]
    rfl
  · rw [hget] at hk
    obtain ⟨e, he, hshape⟩ := Option.map_eq_some_iff.mp hk
    obtain ⟨hnew, hsyncs⟩ := h.part hc
    have hop : e.body.opOf = some (.sync obj, x) := congrArg (fun y => y.2.2) hshape
    have hsync : syncObj e = some obj := by
      unfold syncObj
      cases hb : e.body with
      | op o copy =>
        rw [hb] at hop
        cases hop
        rfl
      | subsched t =>
        rw [hb] at hop
        cases hop
    have hobj : obj ∈ order := by
      rw [← hsyncs]
      exact mem_filterMap.mpr ⟨e, mem_of_getElem? he, hsync⟩
    have hnodup : ((b.entriesOf c).filterMap syncObj).Nodup := hsyncs.symm ▸ h.nodup
    exact ⟨hobj, index_unique hnodup he (h.at_posOf hc hobj) hsync rfl⟩

theorem MasterSched.Built.partsInv (h : b.Built n order) (credits : Nat → Nat) :
    PartsInv n (fun c => ((PartsRun.new n b credits).parts c).skeleton) order b.posOf (PartsRun.new n b credits) := by
  refine ⟨fun c hc => good_of_new ?_, fun _ _ => rfl, fun c hc obj hobj => ?_, fun _ _ => rfl⟩
  · obtain ⟨hnew, -⟩ := h.part hc
    refine .mk (newSched_of_ready _ (fun e he => (hnew e he).status) fun e he => (hnew e he).copy) ?_
    intro i e t he hb
    exact (hnew e (mem_of_getElem? he)).inner t hb
  · have hst : statusAt (b.entriesOf c) (b.posOf c obj) = .notStarted := statusAt_of_get (h.at_posOf hc hobj)
    show statusAt (b.entriesOf c) (b.posOf c obj) ≠ .completeOnce
    rw [hst]
    nofun

end Built

/-- Whatever is added to `n` partial schedules and wherever they are let meet: each call of `sync_subscheds` leaves them
with a `SYNC` of one object at the end where entries are added; in every interleaving of their steps, over any number of
runs, no partial schedule comes to an entry behind the `SYNC` of an object before all of them have completed what is before
theirs; and when the partial schedules have been renewed for a run, the counter is at `n`. -/
theorem sync_subscheds_meet {n : Nat} {l : List (BuildAction τ)} {b : MasterSched τ}
    (hbuild : l.foldlM build (.new n) = some b) {credits : Nat → Nat} {s : PartsRun τ}
    (hrun : (PartsRun.new n b credits).Runs n s) : (∀ l₁ l₂, l = l₁ ++ .syncSubscheds :: l₂ →
        ∃ b₁ obj, (l₁ ++ [.syncSubscheds]).foldlM build (.new n) = some b₁ ∧ b₁.MeetAt obj ∧
          ∀ p < n, ∃ k, syncAt (s.parts p) k = some obj) ∧
      (∀ p < n, ∀ q < n, ∀ obj a b j, syncAt (s.parts p) a = some obj → syncAt (s.parts q) b = some obj → a < j →
        (s.parts p).Attempts j → ∀ i < b, (statusAt (s.parts q).entries i).isCompleted) ∧
      (s.phase = .preparing n → ∀ p < n, ∀ k obj, syncAt (s.parts p) k = some obj → s.counter obj = n) := by
  obtain ⟨order, hb, -⟩ := built_of_builds (new_built n) hbuild
  have hl := hb.layout credits
  have hinv : 0 < n → PartsInv n _ order b.posOf s := fun hn => (hb.partsInv credits).runs hl hn hrun
  refine ⟨?_, ?_, ?_⟩
  · rintro l₁ l₂ rfl
    rw [foldlM_append] at hbuild
    obtain ⟨b₀, h₀, hrest⟩ := Option.bind_eq_some_iff.mp hbuild
    obtain ⟨b₁, h₁, hrest⟩ := Option.bind_eq_some_iff.mp hrest
    obtain ⟨order₀, hb₀, -⟩ := built_of_builds (new_built n) h₀
    obtain ⟨⟨order₁, hb₁, -⟩, obj, hmeet⟩ := hb₀.syncSubscheds h₁
    obtain ⟨order₂, hb₂, hsub⟩ := built_of_builds hb₁ hrest
    have hobj := hsub (hb₁.mem_of_meetAt hmeet)
    refine ⟨b₁, obj, ?_, hmeet, fun p hp => ⟨b.posOf p obj, ?_⟩⟩
    · rw [foldlM_append, h₀]
      simpa only [Option.bind_eq_bind, Option.bind_some, foldlM_cons, foldlM_nil, Option.pure_def,
        Option.bind_fun_some] using h₁
    · have hskel := ((hb₂.partsInv credits).runs (hb₂.layout credits) (Nat.zero_lt_of_lt hp) hrun).skeleton p hp
      exact (hb₂.layout credits).syncAt_pos hp hobj hskel
  · intro p hp q hq obj a b' j ha hb' haj hj
    exact (hinv (Nat.zero_lt_of_lt hp)).meet hl hp hq ha hb' haj hj
  · intro hphase p hp k obj hk
    have hpinv := hinv (Nat.zero_lt_of_lt hp)
    obtain ⟨hobj, -⟩ := hl.pos_of_syncAt hp (hpinv.skeleton p hp) hk
    have hprep := hpinv.phase
    simp only [PhaseInv, hphase] at hprep
    exact ((hprep.2 p hp hp).2 obj hobj).2

theorem runs_of_foldlM {l : List PartsAction} (h : l.foldlM (step n) s = some s') : s.Runs n s' := by
  induction l generalizing s with
  | nil =>
    cases h
    exact .refl
  | cons a l ih =>
    obtain ⟨s₁, ha, hl⟩ := Option.bind_eq_some_iff.mp h
    exact .head ⟨a, ha⟩ (ih hl)

/-- Two partial schedules with an entry each before they meet; the second call of `sync_subscheds` adds nothing. Then the
first gets an entry more, and the second one at the front. -/
def twoPartsBuild : List (BuildAction Unit) :=
  [.addOp 0 false .regular () false, .addOp 1 false .regular () false, .syncSubscheds, .syncSubscheds,
    .addOp 0 false .regular () false, .setAddMode 1 .front, .addOp 1 false .regular () false]

/-- A call of a schedule that starts what it can, and one in which all that has been started reports. -/
def twoPartsRun : List PartsAction :=
  [.start, .renew, .renew, .go,
    .part 0 .call, .part 0 (.loop .visit), .part 0 (.loop (.ret .started .complete)), .part 0 (.loop .visit),
    .part 0 (.loop (.ret .started .started)),
    .part 0 .call, .part 0 (.loop .visit), .visitSync 0, .part 0 (.loop (.ret .started .started)),
    .part 1 .call, .part 1 (.loop .visit), .part 1 (.loop (.ret .started .complete)), .part 1 (.loop .visit),
    .part 1 (.loop (.ret .started .complete)), .part 1 (.loop .visit), .part 1 (.loop (.ret .started .started)),
    .part 1 .call, .part 1 (.loop .visit), .visitSync 1,
    .part 0 .call, .part 0 (.loop .visit), .part 0 (.loop (.ret .started .complete))]

/-- The first comes past its `SYNC` after the second has completed both entries before its own. -/
theorem twoParts_meet :
    ∃ b s, twoPartsBuild.foldlM build (.new 2) = some b ∧ (new 2 b fun _ => 3).Runs 2 s ∧
      syncAt (s.parts 0) 1 = some 0 ∧ syncAt (s.parts 1) 2 = some 0 ∧ (s.parts 0).Attempts 2 ∧
      ∀ i < 2, (statusAt (s.parts 1).entries i).isCompleted := by
  obtain ⟨b, hb, s, hs, h0, h1, hpc⟩ : ∃ b, twoPartsBuild.foldlM build (.new 2) = some b ∧
      ∃ s, twoPartsRun.foldlM (step 2) (new 2 b fun _ => 3) = some s ∧
        syncAt (s.parts 0) 1 = some 0 ∧ syncAt (s.parts 1) 2 = some 0 ∧ (s.parts 0).pc = .scan 2 :=
    ⟨_, rfl, _, rfl, rfl, rfl, rfl⟩
  have hrun := runs_of_foldlM hs
  have hmeet := (sync_subscheds_meet hb hrun).2.1 0 (by decide) 1 (by decide) 0 1 2 2 h0 h1 (by decide) (.inl hpc)
  exact ⟨b, s, hb, hrun, h0, h1, .inl hpc, hmeet⟩

end OneCcl
