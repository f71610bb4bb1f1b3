import OneCcl.Unordered.Manager

/-!
# The stages of a match id

A match id goes through a few stages on a rank, and `MatchInv` lists them with what each of the maps holds for it. A section
of the user's thread or of a worker moves one match id to its next stage and leaves the others where they are. The only
section that finds a match id at a stage it does not fit is the look at `unresolved_comms` between the worker's look at
`postponed_scheds` and its entry into `unresolved_comms`, which `NoLateLook` rules out. So in a run without it every match id
is at one of the stages, on every rank (`unorderedInv_of_run`).
-/

namespace OneCcl

open Function UnorderedRank

open List

variable {μ : Type} [DecidableEq μ]

/-! ## The calls of a rank -/

/-- How many of the current call's first section is behind the user's thread. -/
def PostponePc.begun : PostponePc → Nat
  | .check => 0
  | _ => 1

/-- Whether the current call's coordination, if it takes part in one, is behind the user's thread. -/
def PostponePc.past : PostponePc → Nat
  | .check | .coordinate => 0
  | _ => 1

/-- The first calls with the match id, by number. -/
def callsOf (calls : List μ) (m : μ) (n : Nat) : List Nat := (range n).filter fun i => calls[i]? = some m

section

variable {calls : List μ} {m : μ} {n : Nat}

theorem mem_callsOf {i : Nat} : i ∈ callsOf calls m n ↔ i < n ∧ calls[i]? = some m := by
  simp [callsOf]

theorem nodup_callsOf : (callsOf calls m n).Nodup := nodup_range.filter _

theorem callsOf_succ (h : calls[n]? = some m) : callsOf calls m (n + 1) = callsOf calls m n ++ [n] := by
  simp [callsOf, range_succ, filter_append, h]

theorem callsOf_succ_of_ne (h : calls[n]? ≠ some m) : callsOf calls m (n + 1) = callsOf calls m n := by
  simp [callsOf, range_succ, filter_append, h]

theorem callsOf_eq_nil : callsOf calls m n = [] ↔ ∀ i < n, calls[i]? ≠ some m := by
  simp [callsOf, filter_eq_nil_iff]

end

namespace UnorderedRank

variable (x : UnorderedRank μ) (calls : List μ) (m : μ)

/-- The calls with the match id whose first section is behind the user's thread. -/
def posted : List Nat := callsOf calls m (x.op + x.pc.begun)

def startedOf : List (Nat × Nat) := x.started.filter fun p => calls[p.1]? = some m

def New : Prop := ∀ i < x.op, calls[i]? ≠ some m

/-- The user's thread has found a communicator id for the match id. -/
def Resolving : Prop := calls[x.op]? = some m ∧ ∃ id, x.pc = .addComm id ∨ x.pc = .run id

/-- The post action for the match id, with the match ids of the coordinator in their order. -/
def stageOf (order : List μ) : PostActionPc := if m ∈ order then x.service (order.idxOf m) else .waits

end UnorderedRank

/-- The stages of a match id on a rank.

- `early`: the service schedule is not done, or its worker has found postponed schedules;
- `missed`: the worker has found none, and `reserved`: it has left the communicator id for the user's thread,
- `resolving` and `running`: which has found it;
- `added`: the communicator is there, and schedules may still be postponed;
- `settled`: the communicator is there, and all calls so far are started. -/
inductive MatchInv (calls : List μ) (x : UnorderedRank μ) (m : μ) (id : Nat) : PostActionPc → Prop
  | early {stage : PostActionPc} (hstage : stage = .waits ∨ stage = .found) (hcomm : x.matchIdToComm m = none)
    (hunres : x.unresolvedComms m = none) (hstarted : x.startedOf calls m = [])
    (hpost : x.postponedScheds m = x.posted calls m) (hres : ¬x.Resolving calls m)
    (hfound : stage = .found → x.posted calls m ≠ []) : MatchInv calls x m id stage
  | missed (hcomm : x.matchIdToComm m = none) (hunres : x.unresolvedComms m = none) (hstarted : x.startedOf calls m = [])
    (hpost : x.postponedScheds m = x.posted calls m) (hres : ¬x.Resolving calls m) (hnew : x.New calls m) :
    MatchInv calls x m id .missed
  | reserved (hcomm : x.matchIdToComm m = none) (hunres : x.unresolvedComms m = some id)
    (hstarted : x.startedOf calls m = []) (hpost : x.postponedScheds m = x.posted calls m)
    (hres : ¬x.Resolving calls m) (hnew : x.New calls m) : MatchInv calls x m id .done
  | resolving (hcomm : x.matchIdToComm m = none) (hunres : x.unresolvedComms m = none) (hstarted : x.startedOf calls m = [])
    (hcall : calls[x.op]? = some m) (hpc : x.pc = .addComm id) (hnew : x.New calls m) : MatchInv calls x m id .done
  | running (hcomm : x.matchIdToComm m = some id) (hunres : x.unresolvedComms m = none)
    (hstarted : x.startedOf calls m = []) (hcall : calls[x.op]? = some m) (hpc : x.pc = .run id) (hnew : x.New calls m) :
    MatchInv calls x m id .done
  | added (hcomm : x.matchIdToComm m = some id) (hunres : x.unresolvedComms m = none)
    (hstarted : (x.startedOf calls m ++ (x.postponedScheds m).map fun op => (op, id)).Perm
      ((x.posted calls m).map fun op => (op, id)))
    (hres : ¬x.Resolving calls m) (hne : x.posted calls m ≠ []) : MatchInv calls x m id .added
  | settled (hcomm : x.matchIdToComm m = some id) (hunres : x.unresolvedComms m = none)
    (hstarted : (x.startedOf calls m).Perm ((x.posted calls m).map fun op => (op, id)))
    (hres : ¬x.Resolving calls m) (hne : x.posted calls m ≠ []) : MatchInv calls x m id .done

/-- What holds on a rank, with the match ids of the coordinator in their order. -/
structure RankInv (commId : Nat → Nat) (order calls : List μ) (x : UnorderedRank μ) : Prop where
  op_le : x.op ≤ calls.length
  call : x.pc ≠ .check → x.op < calls.length
  new : x.pc = .coordinate → ∀ m, calls[x.op]? = some m → x.New calls m
  nodup : x.coordinated.Nodup
  mem_coordinated : ∀ m, m ∈ x.coordinated ↔ ∃ i < x.op + x.pc.past, calls[i]? = some m
  service_own : ∀ k, x.service k ≠ .waits → k < x.coordinated.length
  service_lt : ∀ k, x.service k ≠ .waits → k < order.length
  entry : ∀ m, MatchInv calls x m (commId (order.idxOf m)) (x.stageOf m order)

section

variable {calls order : List μ} {commId : Nat → Nat} {x x' : UnorderedRank μ} {m m' : μ} {id : Nat} {stage : PostActionPc}

/-! ## Steps leave the other match ids alone -/

theorem MatchInv.frame (h : MatchInv calls x m id stage) (hres' : ¬x.Resolving calls m)
    (hcomm : x'.matchIdToComm m = x.matchIdToComm m) (hunres : x'.unresolvedComms m = x.unresolvedComms m)
    (hpost : x'.postponedScheds m = x.postponedScheds m) (hstarted : x'.startedOf calls m = x.startedOf calls m)
    (hposted : x'.posted calls m = x.posted calls m) (hres : ¬x'.Resolving calls m) (hnew : x.New calls m → x'.New calls m) :
    MatchInv calls x' m id stage := by
  cases h with
  | early hstage hc hu hs hp _ hfound =>
    exact .early hstage (hcomm.trans hc) (hunres.trans hu) (hstarted.trans hs) (by rw [hpost, hp, hposted]) hres
      (by rwa [hposted])
  | missed hc hu hs hp _ hn =>
    exact .missed (hcomm.trans hc) (hunres.trans hu) (hstarted.trans hs) (by rw [hpost, hp, hposted]) hres (hnew hn)
  | reserved hc hu hs hp _ hn =>
    exact .reserved (hcomm.trans hc) (hunres.trans hu) (hstarted.trans hs) (by rw [hpost, hp, hposted]) hres (hnew hn)
  | resolving _ _ _ hcall hpc => exact absurd ⟨hcall, id, .inl hpc⟩ hres'
  | running _ _ _ hcall hpc => exact absurd ⟨hcall, id, .inr hpc⟩ hres'
  | added hc hu hs _ hne =>
    exact .added (hcomm.trans hc) (hunres.trans hu) (by rwa [hstarted, hpost, hposted]) hres (by rwa [hposted])
  | settled hc hu hs _ hne =>
    exact .settled (hcomm.trans hc) (hunres.trans hu) (by rwa [hstarted, hposted]) hres (by rwa [hposted])

/-- The sections of `postpone` one by one. -/
inductive UserStep (coordinator : Bool) (x : UnorderedRank μ) (m : μ) : UnorderedRank μ → Prop
  | runNow {id : Nat} (hpc : x.pc = .check) (hcomm : x.matchIdToComm m = some id) : UserStep coordinator x m (x.runSched id)
  | postponeMore (hpc : x.pc = .check) (hcomm : x.matchIdToComm m = none) (hne : x.postponedScheds m ≠ []) :
    UserStep coordinator x m
      { x with
        postponedScheds := update x.postponedScheds m (x.postponedScheds m ++ [x.op]), op := x.op + 1, pc := .check }
  | postponeFirst (hpc : x.pc = .check) (hcomm : x.matchIdToComm m = none) (hnil : x.postponedScheds m = []) :
    UserStep coordinator x m
      { x with postponedScheds := update x.postponedScheds m (x.postponedScheds m ++ [x.op]), pc := .coordinate }
  | coordinate (hpc : x.pc = .coordinate) :
    UserStep coordinator x m { x with coordinated := x.coordinated ++ [m], pc := .look }
  | coordinateLast (hpc : x.pc = .coordinate) (hcoordinator : coordinator = true) :
    UserStep coordinator x m { x with coordinated := x.coordinated ++ [m], op := x.op + 1, pc := .check }
  | lookFound {id : Nat} (hpc : x.pc = .look) (hunres : x.unresolvedComms m = some id) :
    UserStep coordinator x m { x with unresolvedComms := update x.unresolvedComms m none, pc := .addComm id }
  | lookNone (hpc : x.pc = .look) (hunres : x.unresolvedComms m = none) :
    UserStep coordinator x m { x with op := x.op + 1, pc := .check }
  | addComm {id : Nat} (hpc : x.pc = .addComm id) :
    UserStep coordinator x m { x with matchIdToComm := emplace x.matchIdToComm m id, pc := .run id }
  | run {id : Nat} (hpc : x.pc = .run id) : UserStep coordinator x m (x.runSched id)

theorem userStep_of_postpone {coordinator hasArrived : Bool} (h : x.postpone coordinator hasArrived m = some x') :
    UserStep coordinator x m x' := by
  unfold postpone at h
  match hpc : x.pc with
  | .check =>
    rw [hpc] at h
    cases hcomm : x.matchIdToComm m with
    | some id =>
      simp only [hcomm, Option.some.injEq] at h
      exact h ▸ .runNow hpc hcomm
    | none =>
      simp only [hcomm, length_append, length_singleton] at h
      split at h
      · next hlen =>
        cases h
        exact .postponeMore hpc hcomm (length_pos_iff.mp (by omega))
      · next hlen =>
        cases h
        exact .postponeFirst hpc hcomm (eq_nil_of_length_eq_zero (by omega))
  | .coordinate =>
    simp only [hpc] at h
    split at h
    · split at h
      · next hcoord =>
        cases h
        exact .coordinateLast hpc hcoord
      · cases h
        exact .coordinate hpc
    · cases h
  | .look =>
    simp only [hpc] at h
    cases hunres : x.unresolvedComms m with
    | some id =>
      simp only [hunres, Option.some.injEq] at h
      exact h ▸ .lookFound hpc hunres
    | none =>
      simp only [hunres, Option.some.injEq] at h
      exact h ▸ .lookNone hpc hunres
  | .addComm id =>
    simp only [hpc, Option.some.injEq] at h
    exact h ▸ .addComm hpc
  | .run id =>
    simp only [hpc, Option.some.injEq] at h
    exact h ▸ .run hpc

variable {coordinator : Bool}

theorem UserStep.begun (h : UserStep coordinator x m x') : x'.op + x'.pc.begun = x.op + 1 := by
  cases h <;> rfl

theorem UserStep.op (h : UserStep coordinator x m x') : x'.op = x.op ∧ x'.pc ≠ .check ∨ x'.op = x.op + 1 ∧ x'.pc = .check := by
  cases h with
  | runNow | postponeMore | coordinateLast | lookNone | run => exact .inr ⟨rfl, rfl⟩
  | _ => exact .inl ⟨rfl, nofun⟩

theorem UserStep.posted (h : UserStep coordinator x m x') : x'.posted calls m' = callsOf calls m' (x.op + 1) := by
  rw [UnorderedRank.posted, h.begun]

theorem UserStep.posted_self (h : UserStep coordinator x m x') (hpc : x.pc ≠ .check) :
    x'.posted calls m' = x.posted calls m' := by
  rw [h.posted, UnorderedRank.posted]
  cases hx : x.pc with
  | check => exact absurd hx hpc
  | _ => rfl

theorem posted_check (hpc : x.pc = .check) : x.posted calls m = callsOf calls m x.op := by
  rw [posted, hpc]
  rfl

theorem UserStep.posted_cons (h : UserStep coordinator x m x') (hm : calls[x.op]? = some m) (hpc : x.pc = .check) :
    x'.posted calls m = x.posted calls m ++ [x.op] := by
  rw [h.posted, callsOf_succ hm, posted_check hpc]

theorem UserStep.posted_other (h : UserStep coordinator x m x') (hm : calls[x.op]? ≠ some m') :
    x'.posted calls m' = x.posted calls m' := by
  by_cases hpc : x.pc = .check
  · rw [h.posted, callsOf_succ_of_ne hm, posted_check hpc]
  · exact h.posted_self hpc

theorem UserStep.new_other (h : UserStep coordinator x m x') (hm : calls[x.op]? ≠ some m') (hnew : x.New calls m') :
    x'.New calls m' := by
  intro i hi
  rcases h.op with ⟨hop, -⟩ | ⟨hop, -⟩
  · exact hnew i (by omega)
  · rcases (Nat.le_of_lt_succ (hop ▸ hi)).lt_or_eq with hlt | rfl
    · exact hnew i hlt
    · exact hm

theorem startedOf_append {p : Nat × Nat} (hp : calls[p.1]? ≠ some m) :
    (x.started ++ [p]).filter (fun p => calls[p.1]? = some m) = x.startedOf calls m := by
  rw [filter_append, startedOf]
  simp [hp]

theorem UserStep.entries_other (h : UserStep coordinator x m x') (hm : calls[x.op]? = some m) (hne : m' ≠ m) :
    x'.matchIdToComm m' = x.matchIdToComm m' ∧ x'.unresolvedComms m' = x.unresolvedComms m' ∧
      x'.postponedScheds m' = x.postponedScheds m' ∧ x'.startedOf calls m' = x.startedOf calls m' := by
  have hop : calls[x.op]? ≠ some m' := fun h => hne (Option.some.inj (h.symm.trans hm))
  cases h with
  | runNow | run => exact ⟨rfl, rfl, rfl, startedOf_append hop⟩
  | postponeMore | postponeFirst => exact ⟨rfl, rfl, update_of_ne hne _ _, rfl⟩
  | coordinate | coordinateLast | lookNone => exact ⟨rfl, rfl, rfl, rfl⟩
  | lookFound => exact ⟨rfl, update_of_ne hne _ _, rfl, rfl⟩
  | addComm => exact ⟨update_of_ne hne _ _, rfl, rfl, rfl⟩

theorem MatchInv.user_other (h : MatchInv calls x m' id stage) (hstep : UserStep coordinator x m x')
    (hm : calls[x.op]? = some m) (hne : m' ≠ m) : MatchInv calls x' m' id stage := by
  have hop : calls[x.op]? ≠ some m' := fun h => hne (Option.some.inj (h.symm.trans hm))
  obtain ⟨hcomm, hunres, hpost, hstarted⟩ := hstep.entries_other hm hne
  refine h.frame (fun hres => hop hres.1) hcomm hunres hpost hstarted (hstep.posted_other hop) ?_ (hstep.new_other hop)
  rintro ⟨hcall, id, hpc⟩
  rcases hstep.op with ⟨hop', -⟩ | ⟨-, hcheck⟩
  · exact hop (hop' ▸ hcall)
  · rw [hcheck] at hpc
    exact absurd hpc nofun

/-! ## The match id of the call -/

omit [DecidableEq μ] in
theorem not_resolving (h : ∀ id, x.pc ≠ .addComm id ∧ x.pc ≠ .run id) : ¬x.Resolving calls m := by
  rintro ⟨-, id, hpc | hpc⟩
  · exact (h id).1 hpc
  · exact (h id).2 hpc

omit [DecidableEq μ] in
theorem not_resolving_check (h : x.pc = .check) : ¬x.Resolving calls m :=
  not_resolving fun _ => ⟨h ▸ nofun, h ▸ nofun⟩

variable {id' : Nat}

theorem MatchInv.runNow (h : MatchInv calls x m id stage) (hm : calls[x.op]? = some m) (hpc : x.pc = .check)
    (hcomm : x.matchIdToComm m = some id') : MatchInv calls (x.runSched id') m id stage := by
  have hstep : UserStep false x m (x.runSched id') := .runNow hpc hcomm
  have hposted := hstep.posted_cons hm hpc
  have hstarted : (x.runSched id').startedOf calls m = x.startedOf calls m ++ [(x.op, id')] := by
    simp [startedOf, runSched, filter_append, hm]
  have hres : ¬(x.runSched id').Resolving calls m := not_resolving_check rfl
  have hne : x.posted calls m ++ [x.op] ≠ [] := append_ne_nil_of_right_ne_nil _ (cons_ne_nil _ _)
  cases h with
  | early _ hc | missed hc | reserved hc | resolving hc => cases hc.symm.trans hcomm
  | running _ _ _ _ hrun => cases hpc.symm.trans hrun
  | added hc hu hs _ _ =>
    cases hc.symm.trans hcomm
    refine .added hc hu ?_ hres (hposted ▸ hne)
    rw [hposted, hstarted, map_append, append_assoc]
    exact (perm_append_comm.append_left _).trans ((append_assoc _ _ _ ▸ hs.append_right _))
  | settled hc hu hs _ _ =>
    cases hc.symm.trans hcomm
    refine .settled hc hu ?_ hres (hposted ▸ hne)
    rw [hposted, hstarted, map_append]
    exact hs.append_right _

theorem MatchInv.postpone (h : MatchInv calls x m id stage) (hstep : UserStep coordinator x m x') (hm : calls[x.op]? = some m)
    (hpc : x.pc = .check) (hcomm : x.matchIdToComm m = none) (hcomm' : x'.matchIdToComm m = none)
    (hunres : x'.unresolvedComms m = x.unresolvedComms m) (hstarted : x'.startedOf calls m = x.startedOf calls m)
    (hpost : x'.postponedScheds m = x.postponedScheds m ++ [x.op]) (hres : ¬x'.Resolving calls m)
    (hnew : x.postponedScheds m = [] → x.New calls m → x'.New calls m) : MatchInv calls x' m id stage := by
  have hposted := hstep.posted_cons hm hpc
  have hnil : x.New calls m → x.posted calls m = [] := by
    intro hnew
    rw [posted_check hpc, callsOf_eq_nil]
    exact hnew
  cases h with
  | early hstage _ hu hs hp _ _ =>
    refine .early hstage hcomm' (hunres.trans hu) (hstarted.trans hs) (by rw [hpost, hp, hposted]) hres fun _ => ?_
    rw [hposted]
    exact append_ne_nil_of_right_ne_nil _ (cons_ne_nil _ _)
  | missed _ hu hs hp _ hn =>
    exact .missed hcomm' (hunres.trans hu) (hstarted.trans hs) (by rw [hpost, hp, hposted]) hres
      (hnew (hp.trans (hnil hn)) hn)
  | reserved _ hu hs hp _ hn =>
    exact .reserved hcomm' (hunres.trans hu) (hstarted.trans hs) (by rw [hpost, hp, hposted]) hres
      (hnew (hp.trans (hnil hn)) hn)
  | resolving _ _ _ _ hadd => cases hpc.symm.trans hadd
  | running hc | added hc | settled hc => cases hc.symm.trans hcomm

theorem MatchInv.user_self (h : MatchInv calls x m id stage) (hstep : UserStep coordinator x m x')
    (hm : calls[x.op]? = some m) (hfirst : x.pc = .coordinate → coordinator = true → stage = .waits)
    (hlook : x.pc = .look → stage ≠ .missed) : MatchInv calls x' m id stage := by
  have hall := hstep
  cases hstep with
  | runNow hpc hcomm => exact h.runNow hm hpc hcomm
  | postponeMore hpc hcomm hne =>
    exact h.postpone hall hm hpc hcomm hcomm rfl rfl (update_self _ _ _) (not_resolving_check rfl)
      fun hnil => absurd hnil hne
  | postponeFirst hpc hcomm hnil =>
    exact h.postpone hall hm hpc hcomm hcomm rfl rfl (update_self _ _ _)
      (not_resolving fun _ => ⟨nofun, nofun⟩) fun _ hnew => hnew
  | coordinate hpc =>
    exact h.frame (not_resolving fun _ => ⟨hpc ▸ nofun, hpc ▸ nofun⟩) rfl rfl rfl rfl (hall.posted_self (hpc ▸ nofun))
      (not_resolving fun _ => ⟨nofun, nofun⟩) fun hnew => hnew
  | coordinateLast hpc hcoord =>
    -- the coordinator's own service schedule is not there yet
    have hposted : posted _ calls m = x.posted calls m := hall.posted_self (hpc ▸ nofun)
    have hstage := hfirst hpc hcoord
    cases h with
    | early _ hc hu hs hp _ hfound =>
      exact .early (.inl hstage) hc hu hs (hp.trans hposted.symm) (not_resolving_check rfl) fun h =>
        absurd (hstage.symm.trans h) nofun
    | _ => cases hstage
  | lookFound hpc hunres =>
    cases h with
    | reserved hc hu hs _ _ hn =>
      cases hu.symm.trans hunres
      exact .resolving hc (update_self _ _ _) hs hm rfl hn
    | early _ _ hu | missed _ hu | resolving _ hu | running _ hu | added _ hu | settled _ hu =>
      cases hu.symm.trans hunres
  | lookNone hpc hunres =>
    have hposted : posted _ calls m = x.posted calls m := hall.posted_self (hpc ▸ nofun)
    have hres : ¬UnorderedRank.Resolving { x with op := x.op + 1, pc := .check } calls m := not_resolving_check rfl
    cases h with
    | early hstage hc hu hs hp _ hfound =>
      exact .early hstage hc hu hs (hp.trans hposted.symm) hres (by rwa [hposted])
    | added hc hu hs _ hne => exact .added hc hu (by rwa [hposted]) hres (by rwa [hposted])
    | settled hc hu hs _ hne => exact .settled hc hu (by rwa [hposted]) hres (by rwa [hposted])
    | missed => exact absurd rfl (hlook hpc)
    | reserved _ hu => cases hu.symm.trans hunres
    | resolving _ _ _ _ hadd | running _ _ _ _ hadd => cases hpc.symm.trans hadd
  | @addComm id' hpc =>
    cases h with
    | resolving hc hu hs _ hadd hn =>
      cases hpc.symm.trans hadd
      refine .running ?_ hu hs hm rfl hn
      simp [emplace, hc]
    | running _ _ _ _ hrun => cases hpc.symm.trans hrun
    | early _ _ _ _ _ hr | missed _ _ _ _ hr | reserved _ _ _ _ hr | added _ _ _ hr | settled _ _ _ hr =>
      exact absurd ⟨hm, id', .inl hpc⟩ hr
  | @run id' hpc =>
    cases h with
    | running hc hu hs _ hrun hn =>
      obtain rfl := PostponePc.run.inj (hpc.symm.trans hrun)
      have hposted : (x.runSched id').posted calls m = [x.op] := by
        rw [hall.posted, callsOf_succ hm, callsOf_eq_nil.mpr hn, nil_append]
      have hstarted : (x.runSched id').startedOf calls m = [(x.op, id')] := by
        have hnil : x.started.filter (fun p => calls[p.1]? = some m) = [] := hs
        simp [startedOf, runSched, filter_append, hm, hnil]
      refine .settled hc hu ?_ (not_resolving_check rfl) (hposted ▸ cons_ne_nil _ _)
      rw [hposted, hstarted, map_singleton]
    | resolving _ _ _ _ hadd => cases hpc.symm.trans hadd
    | early _ _ _ _ _ hr | missed _ _ _ _ hr | reserved _ _ _ _ hr | added _ _ _ hr | settled _ _ _ hr =>
      exact absurd ⟨hm, id', .inr hpc⟩ hr

/-! ## What holds on a rank stays -/

theorem UserStep.service (h : UserStep coordinator x m x') : x'.service = x.service := by
  cases h <;> rfl

theorem UserStep.coordinated (h : UserStep coordinator x m x') :
    x'.coordinated = x.coordinated ∨ x.pc = .coordinate ∧ x'.coordinated = x.coordinated ++ [m] := by
  cases h with
  | coordinate hpc | coordinateLast hpc => exact .inr ⟨hpc, rfl⟩
  | _ => exact .inl rfl

theorem UserStep.length_coordinated (h : UserStep coordinator x m x') : x.coordinated.length ≤ x'.coordinated.length := by
  rcases h.coordinated with heq | ⟨-, heq⟩
  · rw [heq]
  · rw [heq, length_append]
    exact Nat.le_add_right _ _

theorem MatchInv.exists_lt (h : MatchInv calls x m id stage) (hpc : x.pc = .check)
    (hold : x.matchIdToComm m ≠ none ∨ x.postponedScheds m ≠ []) : ∃ i < x.op, calls[i]? = some m := by
  have hposted : x.posted calls m ≠ [] → ∃ i < x.op, calls[i]? = some m := by
    intro hne
    obtain ⟨i, hi⟩ := exists_mem_of_ne_nil _ hne
    rw [posted_check hpc, mem_callsOf] at hi
    exact ⟨i, hi⟩
  cases h with
  | early _ hc _ _ hp | missed hc _ _ hp | reserved hc _ _ hp =>
    exact hposted (hp ▸ hold.resolve_left (not_not_intro hc))
  | resolving _ _ _ _ hadd => cases hpc.symm.trans hadd
  | running _ _ _ _ hrun => cases hpc.symm.trans hrun
  | added _ _ _ _ hne | settled _ _ _ _ hne => exact hposted hne

theorem MatchInv.new (h : MatchInv calls x m id stage) (hpc : x.pc = .check) (hcomm : x.matchIdToComm m = none)
    (hnil : x.postponedScheds m = []) : x.New calls m := by
  cases h with
  | early _ _ _ _ hp =>
    rw [hp, posted_check hpc, callsOf_eq_nil] at hnil
    exact hnil
  | missed _ _ _ _ _ hn | reserved _ _ _ _ _ hn | resolving _ _ _ _ _ hn | running _ _ _ _ _ hn => exact hn
  | added hc | settled hc => cases hc.symm.trans hcomm

theorem RankInv.not_mem_coordinated (h : RankInv commId order calls x) (hpc : x.pc = .coordinate)
    (hm : calls[x.op]? = some m) : m ∉ x.coordinated := by
  rw [h.mem_coordinated, hpc]
  rintro ⟨i, hi, hcall⟩
  exact h.new hpc m hm i hi hcall

theorem RankInv.mem_coordinated_user (h : RankInv commId order calls x) (hstep : UserStep coordinator x m x')
    (hm : calls[x.op]? = some m) (m' : μ) : m' ∈ x'.coordinated ↔ ∃ i < x'.op + x'.pc.past, calls[i]? = some m' := by
  have hmem := h.mem_coordinated m'
  -- the first call with its match id takes part in a coordination, the others do not
  have hold : x.pc = .check → (x.matchIdToComm m ≠ none ∨ x.postponedScheds m ≠ []) →
      (m' ∈ x.coordinated ↔ ∃ i < x.op + 1, calls[i]? = some m') := by
    intro hpc hold
    rw [hpc] at hmem
    rw [hmem, Nat.exists_lt_succ_right]
    constructor
    · exact .inl
    · rintro (hlt | hcall)
      · exact hlt
      · cases hm.symm.trans hcall
        exact (h.entry m).exists_lt hpc hold
  have hcoordinated : x.pc = .coordinate → (m' ∈ x.coordinated ++ [m] ↔ ∃ i < x.op + 1, calls[i]? = some m') := by
    intro hpc
    rw [hpc] at hmem
    rw [mem_append, mem_singleton, hmem, Nat.exists_lt_succ_right, hm, Option.some.injEq, eq_comm]
    rfl
  cases hstep with
  | runNow hpc hcomm => exact hold hpc (.inl (hcomm ▸ nofun))
  | postponeMore hpc _ hne => exact hold hpc (.inr hne)
  | postponeFirst hpc | lookFound hpc | lookNone hpc | addComm hpc | run hpc =>
    rw [hpc] at hmem
    exact hmem
  | coordinate hpc | coordinateLast hpc => exact hcoordinated hpc

/-- **A section of `postpone` keeps what holds on the rank.** -/
theorem RankInv.user (h : RankInv commId order calls x) (hstep : UserStep coordinator x m x') (hm : calls[x.op]? = some m)
    (hcoord : coordinator = true → order = x.coordinated) (hlook : x.pc = .look → x.stageOf m order ≠ .missed) :
    RankInv commId order calls x' where
  op_le := by
    have hlt := (List.getElem?_eq_some_iff.mp hm).1
    rcases hstep.op with ⟨hop, -⟩ | ⟨hop, -⟩ <;> omega
  call := by
    intro hpc
    have hlt := (List.getElem?_eq_some_iff.mp hm).1
    rcases hstep.op with ⟨hop, -⟩ | ⟨-, hcheck⟩
    · omega
    · exact absurd hcheck hpc
  new := by
    intro hpc m' hm'
    cases hstep with
    | postponeFirst hcheck hcomm hnil =>
      cases hm.symm.trans hm'
      exact (h.entry m).new hcheck hcomm hnil
    | _ => cases hpc
  nodup := by
    cases hstep with
    | coordinate hpc | coordinateLast hpc =>
      have hnodup := h.nodup.concat (h.not_mem_coordinated hpc hm)
      rwa [concat_eq_append] at hnodup
    | _ => exact h.nodup
  mem_coordinated := h.mem_coordinated_user hstep hm
  service_own := by
    rw [hstep.service]
    intro k hk
    exact (h.service_own k hk).trans_le hstep.length_coordinated
  service_lt := by
    rw [hstep.service]
    exact h.service_lt
  entry := by
    intro m'
    have hstage : x'.stageOf m' order = x.stageOf m' order := by rw [stageOf, hstep.service]; rfl
    rw [hstage]
    by_cases hne : m' = m
    · subst hne
      refine (h.entry m').user_self hstep hm ?_ hlook
      intro hpc hc
      rw [stageOf, if_neg]
      rw [hcoord hc]
      exact h.not_mem_coordinated hpc hm
    · exact (h.entry m').user_other hstep hm hne

/-! ## The workers -/

theorem MatchInv.congr (h : MatchInv calls x m id stage) (hop : x'.op = x.op) (hpc : x'.pc = x.pc)
    (hcomm : x'.matchIdToComm m = x.matchIdToComm m) (hunres : x'.unresolvedComms m = x.unresolvedComms m)
    (hpost : x'.postponedScheds m = x.postponedScheds m) (hstarted : x'.startedOf calls m = x.startedOf calls m) :
    MatchInv calls x' m id stage := by
  have hposted : x'.posted calls m = x.posted calls m := by rw [posted, hop, hpc]; rfl
  have hnew : x.New calls m → x'.New calls m := by
    intro hnew i hi
    exact hnew i (hop ▸ hi)
  by_cases hres : x.Resolving calls m
  · cases h with
    | early _ _ _ _ _ hr | missed _ _ _ _ hr | reserved _ _ _ _ hr | added _ _ _ hr | settled _ _ _ hr =>
      exact absurd hres hr
    | resolving hc hu hs hcall hadd hn =>
      exact .resolving (hcomm.trans hc) (hunres.trans hu) (hstarted.trans hs) (hop ▸ hcall) (hpc.trans hadd) (hnew hn)
    | running hc hu hs hcall hrun hn =>
      exact .running (hcomm.trans hc) (hunres.trans hu) (hstarted.trans hs) (hop ▸ hcall) (hpc.trans hrun) (hnew hn)
  · refine h.frame hres hcomm hunres hpost hstarted hposted ?_ hnew
    rwa [UnorderedRank.Resolving, hop, hpc]

/-- The sections of the post actions one by one. -/
inductive WorkerStep (x : UnorderedRank μ) (k : Nat) (m : μ) (id : Nat) : UnorderedRank μ → Prop
  | found (hk : x.service k = .waits) (hne : x.postponedScheds m ≠ []) :
    WorkerStep x k m id { x with service := update x.service k .found }
  | missed (hk : x.service k = .waits) (hnil : x.postponedScheds m = []) :
    WorkerStep x k m id { x with service := update x.service k .missed }
  | reserve (hk : x.service k = .missed) :
    WorkerStep x k m id
      { x with unresolvedComms := emplace x.unresolvedComms m id, service := update x.service k .done }
  | addComm (hk : x.service k = .found) :
    WorkerStep x k m id
      { x with matchIdToComm := emplace x.matchIdToComm m id, service := update x.service k .added }
  | runPostponed (hk : x.service k = .added) :
    WorkerStep x k m id
      { x with
        started := x.started ++ (x.postponedScheds m).map fun op => (op, id),
        postponedScheds := update x.postponedScheds m [], service := update x.service k .done }

theorem workerStep_of_postAction {k : Nat} (h : x.postAction coordinator k m id = some x') : WorkerStep x k m id x' := by
  unfold postAction at h
  match hk : x.service k with
  | .waits =>
    simp only [hk] at h
    split at h
    · next hne =>
      cases h
      exact .found hk hne
    · next hnil =>
      split at h
      · cases h
      · cases h
        exact .missed hk (not_not.mp hnil)
  | .missed =>
    simp only [hk, Option.some.injEq] at h
    exact h ▸ .reserve hk
  | .found =>
    simp only [hk, Option.some.injEq] at h
    exact h ▸ .addComm hk
  | .added =>
    simp only [hk, Option.some.injEq] at h
    exact h ▸ .runPostponed hk
  | .done =>
    simp only [hk] at h
    cases h

variable {k : Nat}

theorem MatchInv.calls_of_postponed (h : MatchInv calls x m id .added) {i : Nat} (hi : i ∈ x.postponedScheds m) :
    calls[i]? = some m := by
  cases h with
  | early hstage => exact absurd hstage (by decide)
  | added _ _ hs =>
    have hmem : (i, id) ∈ (x.posted calls m).map fun op => (op, id) :=
      hs.subset (mem_append_right _ (mem_map_of_mem hi))
    obtain ⟨i', hi', heq⟩ := mem_map.mp hmem
    obtain rfl := congrArg Prod.fst heq
    exact (mem_callsOf.mp hi').2

theorem filter_postponed (h : MatchInv calls x m id .added) (m' : μ) :
    ((x.postponedScheds m).map fun op => (op, id)).filter (fun p => calls[p.1]? = some m') =
      if m' = m then (x.postponedScheds m).map fun op => (op, id) else [] := by
  split
  · next heq =>
    subst heq
    rw [filter_eq_self]
    intro p hp
    obtain ⟨i, hi, rfl⟩ := mem_map.mp hp
    exact decide_eq_true (h.calls_of_postponed hi)
  · next hne =>
    rw [filter_eq_nil_iff]
    intro p hp
    obtain ⟨i, hi, rfl⟩ := mem_map.mp hp
    rw [decide_eq_true_eq, h.calls_of_postponed hi]
    exact fun heq => hne (Option.some.inj heq).symm

theorem MatchInv.worker_self (h : MatchInv calls x m id (x.service k)) (hstep : WorkerStep x k m id x') :
    MatchInv calls x' m id (x'.service k) := by
  cases hstep with
  | found hk hne =>
    rw [hk] at h
    dsimp only
    rw [update_self]
    cases h with
    | early _ hc hu hs hp hr _ => exact .early (.inr rfl) hc hu hs hp hr fun _ hnil => hne (hp.trans hnil)
  | missed hk hnil =>
    rw [hk] at h
    dsimp only
    rw [update_self]
    cases h with
    | early _ hc hu hs hp hr _ =>
      refine .missed hc hu hs hp hr fun i hi => ?_
      have hposted : x.posted calls m = [] := hp.symm.trans hnil
      exact callsOf_eq_nil.mp hposted i (Nat.lt_add_right _ hi)
  | reserve hk =>
    rw [hk] at h
    dsimp only
    rw [update_self]
    cases h with
    | early hstage => exact absurd hstage (by decide)
    | missed hc hu hs hp hr hn =>
      refine .reserved hc ?_ hs hp hr hn
      simp [emplace, hu]
  | addComm hk =>
    rw [hk] at h
    dsimp only
    rw [update_self]
    cases h with
    | early _ hc hu hs hp hr hfound =>
      refine .added ?_ hu ?_ hr (hfound rfl)
      · simp [emplace, hc]
      · have hstarted : x.startedOf calls m ++ (x.postponedScheds m).map (fun op => (op, id)) =
            (x.posted calls m).map fun op => (op, id) := by rw [hs, hp, nil_append]
        exact .of_eq hstarted
  | runPostponed hk =>
    rw [hk] at h
    dsimp only
    rw [update_self]
    have hfilter := filter_postponed h m
    rw [if_pos rfl] at hfilter
    cases h with
    | early hstage => exact absurd hstage (by decide)
    | added hc hu hs hr hne =>
      refine .settled hc hu ?_ hr hne
      have hstarted : (x.started ++ (x.postponedScheds m).map fun op => (op, id)).filter (fun p => calls[p.1]? = some m) =
          x.startedOf calls m ++ (x.postponedScheds m).map fun op => (op, id) := by
        rw [filter_append, hfilter]
        rfl
      exact (List.Perm.of_eq hstarted).trans hs

theorem MatchInv.worker_other (h : MatchInv calls x m' id' stage) (hm : MatchInv calls x m id (x.service k))
    (hstep : WorkerStep x k m id x') (hne : m' ≠ m) : MatchInv calls x' m' id' stage := by
  cases hstep with
  | found | missed => exact h.congr rfl rfl rfl rfl rfl rfl
  | reserve => exact h.congr rfl rfl rfl (update_of_ne hne _ _) rfl rfl
  | addComm => exact h.congr rfl rfl (update_of_ne hne _ _) rfl rfl rfl
  | runPostponed hk =>
    rw [hk] at hm
    have hfilter := filter_postponed hm m'
    rw [if_neg hne] at hfilter
    refine h.congr rfl rfl rfl rfl (update_of_ne hne _ _) ?_
    rw [startedOf, filter_append, hfilter, append_nil]
    rfl

theorem WorkerStep.service (h : WorkerStep x k m id x') {k' : Nat} (hk : k' ≠ k) : x'.service k' = x.service k' := by
  cases h <;> exact update_of_ne hk _ _

theorem WorkerStep.user (h : WorkerStep x k m id x') : x'.op = x.op ∧ x'.pc = x.pc ∧ x'.coordinated = x.coordinated := by
  cases h <;> exact ⟨rfl, rfl, rfl⟩

theorem idxOf_eq (hnodup : order.Nodup) (hk : order[k]? = some m) : order.idxOf m = k := by
  obtain ⟨hlt, rfl⟩ := List.getElem?_eq_some_iff.mp hk
  exact hnodup.idxOf_getElem k hlt

theorem stageOf_eq (hnodup : order.Nodup) (hk : order[k]? = some m) : x.stageOf m order = x.service k := by
  rw [stageOf, if_pos (mem_of_getElem? hk), idxOf_eq hnodup hk]

/-- **A section of a post action keeps what holds on the rank.** -/
theorem RankInv.worker (h : RankInv commId order calls x) (hnodup : order.Nodup) (hk : order[k]? = some m)
    (hown : k < x.coordinated.length) (hstep : WorkerStep x k m (commId k) x') : RankInv commId order calls x' := by
  obtain ⟨hop, hpc, hcoordinated⟩ := hstep.user
  have hentry := h.entry m
  rw [stageOf_eq hnodup hk, idxOf_eq hnodup hk] at hentry
  refine ⟨hop ▸ h.op_le, ?_, ?_, hcoordinated ▸ h.nodup, ?_, ?_, ?_, ?_⟩
  · rw [hop, hpc]
    exact h.call
  · rw [hop, hpc]
    intro hc m' hm' i hi
    exact h.new hc m' hm' i (hop ▸ hi)
  · rw [hop, hpc, hcoordinated]
    exact h.mem_coordinated
  · intro k' hk'
    by_cases heq : k' = k
    · rw [heq, hcoordinated]
      exact hown
    · rw [hstep.service heq] at hk'
      rw [hcoordinated]
      exact h.service_own k' hk'
  · intro k' hk'
    by_cases heq : k' = k
    · rw [heq]
      exact (List.getElem?_eq_some_iff.mp hk).1
    · rw [hstep.service heq] at hk'
      exact h.service_lt k' hk'
  · intro m'
    by_cases hne : m' = m
    · subst hne
      rw [stageOf_eq hnodup hk, idxOf_eq hnodup hk]
      exact hentry.worker_self hstep
    · have hstage : x'.stageOf m' order = x.stageOf m' order := by
        unfold stageOf
        split
        · next hmem =>
          refine hstep.service fun heq => hne ?_
          have hget := getElem?_idxOf hmem
          rw [heq, hk] at hget
          exact (Option.some.inj hget).symm
        · rfl
      rw [hstage]
      exact (h.entry m').worker_other hentry hstep hne

theorem RankInv.extend (h : RankInv commId order calls x) (hm : m ∉ order) : RankInv commId (order ++ [m]) calls x where
  op_le := h.op_le
  call := h.call
  new := h.new
  nodup := h.nodup
  mem_coordinated := h.mem_coordinated
  service_own := h.service_own
  service_lt := by
    intro k hk
    rw [length_append]
    exact Nat.lt_add_right _ (h.service_lt k hk)
  entry := by
    intro m'
    have hentry := h.entry m'
    unfold stageOf at hentry ⊢
    by_cases hmem : m' ∈ order
    · rw [if_pos (mem_append_left _ hmem), idxOf_append_of_mem hmem]
      rwa [if_pos hmem] at hentry
    · rw [if_neg hmem] at hentry
      have hwaits : ∀ id, MatchInv calls x m' id .waits := by
        intro id
        cases hentry with
        | early hstage hc hu hs hp hr hfound => exact .early hstage hc hu hs hp hr hfound
      split
      · next hmem' =>
        have heq : m' = m := by simpa [hmem] using hmem'
        have hidx : (order ++ [m]).idxOf m' = order.length := by
          rw [heq, idxOf_append_of_notMem hm]
          simp
        have hservice : x.service order.length = .waits := by
          by_contra hne
          exact lt_irrefl _ (h.service_lt _ hne)
        rw [hidx, hservice]
        exact hwaits _
      · exact hwaits _

end

/-! ## All ranks -/

section

variable {n : Nat} {calls : Fin (n + 1) → List μ} {commId : Nat → Nat} {s s' : Fin (n + 1) → UnorderedRank μ}
  {action : UnorderedAction n} {actions : List (UnorderedAction n)} {r r' : Fin (n + 1)} {m : μ} {k : Nat}

variable (calls commId) in
/-- What holds in a run without a late look. -/
def UnorderedInv (s : Fin (n + 1) → UnorderedRank μ) : Prop :=
  ∀ r, RankInv commId (coordinatorOrder s) (calls r) (s r)

theorem unorderedStep_cases (h : unorderedStep calls commId s action = some s') : ∃ r x, s' = update s r x ∧
    ((∃ m, action = .user r ∧ (calls r)[(s r).op]? = some m ∧ UserStep (r == 0) (s r) m x) ∨
      ∃ k m, action = .worker r k ∧ k < (s r).coordinated.length ∧ (s 0).coordinated[k]? = some m ∧
        WorkerStep (s r) k m (commId k) x) := by
  cases action with
  | user r =>
    simp only [unorderedStep, Option.bind_eq_bind, Option.bind_eq_some_iff, Option.pure_def, Option.some.injEq] at h
    obtain ⟨m, hm, x, hx, rfl⟩ := h
    exact ⟨r, x, rfl, .inl ⟨m, rfl, hm, userStep_of_postpone hx⟩⟩
  | worker r k =>
    rw [unorderedStep] at h
    split at h
    · next hown =>
      simp only [Option.bind_eq_bind, Option.bind_eq_some_iff, Option.pure_def, Option.some.injEq] at h
      obtain ⟨m, hm, x, hx, rfl⟩ := h
      exact ⟨r, x, rfl, .inr ⟨k, m, rfl, hown, hm, workerStep_of_postAction hx⟩⟩
    · cases h

/-- A step of a thread or a worker keeps the invariant of all ranks. -/
theorem UnorderedInv.step (h : UnorderedInv calls commId s) (hok : NoLateLook calls s action)
    (hstep : unorderedStep calls commId s action = some s') : UnorderedInv calls commId s' := by
  obtain ⟨r, x, rfl, hx⟩ := unorderedStep_cases hstep
  -- the rank that takes the step, with the coordinator's match ids as they were
  have hrank : RankInv commId (s 0).coordinated (calls r) x := by
    rcases hx with ⟨m, rfl, hm, hx⟩ | ⟨k, m, rfl, hown, hm, hx⟩
    · refine (h r).user hx hm (fun hr => by rw [beq_iff_eq.mp hr]) fun hpc hmissed => ?_
      unfold stageOf at hmissed
      split at hmissed
      · next hmem => exact hok hpc _ m hm (getElem?_idxOf hmem) hmissed
      · cases hmissed
    · exact (h r).worker (h 0).nodup hm hown hx
  have hall : ∀ r', RankInv commId (s 0).coordinated (calls r') (update s r x r') := by
    intro r'
    by_cases hr : r' = r
    · subst hr
      rwa [update_self]
    · rw [update_of_ne hr]
      exact h r'
  have horder : (update s r x 0).coordinated = (s 0).coordinated ∨
      ∃ m, m ∉ (s 0).coordinated ∧ (update s r x 0).coordinated = (s 0).coordinated ++ [m] := by
    by_cases hr : (0 : Fin (n + 1)) = r
    · subst hr
      rw [update_self]
      rcases hx with ⟨m, rfl, hm, hx⟩ | ⟨k, m, rfl, hown, hm, hx⟩
      · refine hx.coordinated.imp_right ?_
        rintro ⟨hpc, heq⟩
        exact ⟨m, (h 0).not_mem_coordinated hpc hm, heq⟩
      · exact .inl hx.user.2.2
    · rw [update_of_ne hr]
      exact .inl rfl
  intro r'
  rcases horder with heq | ⟨m, hm, heq⟩
  · rw [coordinatorOrder, heq]
    exact hall r'
  · rw [coordinatorOrder, heq]
    exact (hall r').extend hm

theorem unorderedInv_start : UnorderedInv calls commId fun _ => {} := by
  intro r
  refine ⟨Nat.zero_le _, fun h => absurd rfl h, (fun h => by cases h), nodup_nil, ?_, fun _ h => absurd rfl h,
    fun _ h => absurd rfl h, ?_⟩
  · intro m
    simp [PostponePc.past]
  · intro m
    exact .early (.inl rfl) rfl rfl rfl rfl (not_resolving_check rfl) fun h => by cases h

/-- It holds throughout a run without a late look. -/
theorem unorderedInv_of_run (h : UnorderedRun calls commId (NoLateLook calls) actions s) : UnorderedInv calls commId s := by
  induction h with
  | nil => exact unorderedInv_start
  | snoc _ hok hstep ih => exact ih.step hok hstep

end

end OneCcl
