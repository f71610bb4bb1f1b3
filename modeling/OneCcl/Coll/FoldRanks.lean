import OneCcl.Coll.CopyIn
import OneCcl.Coll.Numbering

/-!
# Folding the ranks onto a power of two

Rabenseifner's and the recursive doubling allreduce run on a power of two of ranks. When the
communicator has `rem` ranks more, of each pair of the first `2 * rem` ranks the even one sends its data to
the odd one, sits out, and is sent the result at the end. The ranks that take part are renumbered.

Both builders have these steps in the same words: here they are once, with their rounds and what the rounds
compute. `buildFolded` is a builder with its own steps between folding in and folding out, and
`MainRounds.contract` leaves these as all there is to prove: that they reduce over a power of two of ranks.
-/

namespace OneCcl

open Async Reduction List SchedRound

variable {rank v r i : Nat} {β : Type}

/-! ## Renumbering -/

section

variable {rem m : Nat}

/-- The real rank of a new rank: `(newdst < rem) ? newdst * 2 + 1 : newdst + rem`. -/
def realRank (rem newdst : Nat) : Nat := if newdst < rem then newdst * 2 + 1 else newdst + rem

/-- The new rank of a rank, none for one that sits out. -/
def newRank (rem rank : Nat) : Option Nat :=
  if rank < 2 * rem then if rank % 2 = 0 then none else some (rank / 2) else some (rank - rem)

theorem newRank_realRank (rem v : Nat) : newRank rem (realRank rem v) = some v := by
  unfold newRank realRank
  split
  next h =>
    rw [if_pos (by omega), if_neg (by omega)]
    exact congrArg some (by omega)
  next h =>
    rw [if_neg (by omega)]
    exact congrArg some (by omega)

theorem realRank_of_newRank (h : newRank rem rank = some v) : realRank rem v = rank := by
  unfold newRank at h
  unfold realRank
  split at h
  next h1 =>
    split at h
    next => cases h
    next h2 =>
      cases h
      rw [if_pos (by omega)]
      omega
  next h1 =>
    cases h
    rw [if_neg (by omega)]
    omega

theorem realRank_lt (hv : v < m) : realRank rem v < m + rem := by
  unfold realRank
  split <;> omega

theorem lt_of_realRank_lt (hrem : rem ≤ m) (h : realRank rem v < m + rem) : v < m := by
  unfold realRank at h
  split at h <;> omega

end

/-- The ranks that take part, by their new ranks. -/
def foldNumbering (comm : CclComm) : Numbering comm.size (2 ^ comm.log) where
  real := realRank comm.rem
  new := newRank comm.rem
  real_lt v hv := by
    rw [comm.size_eq]
    exact realRank_lt hv
  new_real v _ := newRank_realRank comm.rem v
  of_new r hr v hv := by
    have hreal := realRank_of_newRank hv
    refine ⟨lt_of_realRank_lt comm.rem_lt.le ?_, hreal⟩
    rw [hreal, ← comm.size_eq]
    exact hr

/-! ## The steps of the builders -/

/-- Folding in: the even ranks below `2 * rem` send, the odd ones receive and reduce. -/
def foldIn (recvBuf tmpBuf : CclBuffer) (count rem rank : Nat) (sched : Sched) : Sched × Option Nat :=
  if rank < 2 * rem then
    if rank % 2 = 0 then
      ((sched.create (.send recvBuf count (rank + 1))).addBarrier, none)
    else
      let sched := (sched.create (.recv tmpBuf count (rank - 1))).addBarrier
      let sched := (sched.create (.reduceLocal tmpBuf count recvBuf)).addBarrier
      (sched, some (rank / 2))
  else (sched, some (rank - rem))

/-- Folding out: the odd ranks below `2 * rem` send the result back. -/
def foldOut (recvBuf : CclBuffer) (count rank : Nat) (sched : Sched) : Sched :=
  if rank % 2 = 1 then sched.create (.send recvBuf count (rank - 1))
  else sched.create (.recv recvBuf count (rank + 1))

/-- A builder with its own steps for the ranks that take part, with or without a barrier at the end. -/
def buildFolded (main : CclBuffer → Nat → Sched → Option Sched) (barrier : Bool) (sendBuf recvBuf : CclBuffer)
    (count : Nat) (comm : CclComm) (rank : Nat) (sched : Sched) : Option Sched := do
  if count = 0 then return sched
  let (tmpBuf, sched) ← sched.allocBuffer count
  let sched := copyIn sendBuf recvBuf count sched
  if comm.size = 1 then return sched
  let rem := comm.size - comm.pof2
  let (sched, newrank) := foldIn recvBuf tmpBuf count rem rank sched
  let sched ← newrank.elim (some sched) fun newrank => main tmpBuf newrank sched
  if rank < 2 * rem then
    let sched := foldOut recvBuf count rank sched
    return if barrier then sched.addBarrier else sched
  else return sched

theorem foldIn_snd (recvBuf tmpBuf : CclBuffer) (count rem rank : Nat) (sched : Sched) :
    (foldIn recvBuf tmpBuf count rem rank sched).2 = newRank rem rank := by
  unfold foldIn newRank
  split
  · split <;> rfl
  · rfl

theorem foldIn_allocs (recvBuf tmpBuf : CclBuffer) (count rem rank : Nat) (sched : Sched) :
    (foldIn recvBuf tmpBuf count rem rank sched).1.allocs = sched.allocs := by
  unfold foldIn
  split
  · split <;> rfl
  · rfl

theorem foldIn_num (recvBuf tmpBuf : CclBuffer) (count rem rank : Nat) (sched : Sched) :
    (foldIn recvBuf tmpBuf count rem rank sched).1.num = sched.num := by
  unfold foldIn
  split
  · split <;> rfl
  · rfl

def foldTmp : CclBuffer := ⟨.alloc 0 0, 0⟩

namespace AllreduceCall

variable (A : AllreduceCall)

abbrev log : Nat := A.comm.log

abbrev rem : Nat := A.comm.rem

abbrev real (v : Nat) : Nat := realRank A.rem v

/-- What the ranks that take part do, by their new rank. -/
def onFolded (f : Nat → β) (r : Nat) : Option β := (foldNumbering A.comm).on f r

def foldInKinds (r : Nat) : List EntryKind :=
  if r < 2 * A.rem then
    if r % 2 = 0 then [.send A.recvBuf A.count (r + 1)] else [.recv foldTmp A.count (r - 1)]
  else []

def foldInReduceKinds (r : Nat) : List EntryKind :=
  if r < 2 * A.rem ∧ r % 2 = 1 then [.reduceLocal foldTmp A.count A.recvBuf] else []

def foldOutKinds (r : Nat) : List EntryKind :=
  if r < 2 * A.rem then
    if r % 2 = 1 then [.send A.recvBuf A.count (r - 1)] else [.recv A.recvBuf A.count (r + 1)]
  else []

theorem size_eq : A.n = 2 ^ A.log + A.rem := A.comm.size_eq

theorem rem_lt : A.rem < 2 ^ A.log := A.comm.rem_lt

theorem pof2_eq : A.comm.pof2 = 2 ^ A.log := A.comm.pof2_eq

theorem size_sub_pof2 : A.comm.size - 2 ^ A.log = A.rem := by rw [rem, CclComm.rem, A.pof2_eq]

theorem log_of_one (h : A.n = 1) : A.log = 0 := A.comm.log_of_one h

theorem two_mul_rem_le : 2 * A.rem ≤ A.n := by
  have := A.size_eq
  have := A.rem_lt
  omega

variable {A}

theorem onFolded_real (f : Nat → β) (hv : v < 2 ^ A.log) : A.onFolded f (A.real v) = some (f v) :=
  (foldNumbering A.comm).on_real f hv

theorem onFolded_of_newRank (f : Nat → β) (h : newRank A.rem r = none) : A.onFolded f r = none :=
  (foldNumbering A.comm).on_of_new f h

theorem foldTmp_apart : PieceApart (foldTmp, A.count) (A.recvBuf, A.count) := .inl (A.recvBuf_ne_alloc 0 0).symm

theorem foldIn_entries (rank : Nat) (sched : Sched) :
    (foldIn A.recvBuf foldTmp A.count A.rem rank sched).1.entries =
      sched.entries ++ (entriesOf true (A.foldInKinds rank) ++ entriesOf true (A.foldInReduceKinds rank)) := by
  unfold foldIn foldInKinds foldInReduceKinds
  by_cases h : rank < 2 * A.rem
  · rw [if_pos h, if_pos h]
    by_cases h2 : rank % 2 = 0
    · rw [if_pos h2, if_pos h2, if_neg (by omega)]
      simp only [Sched.addBarrier_create_entries, entriesOf_singleton, entriesOf_nil, append_nil]
    · rw [if_neg h2, if_neg h2, if_pos ⟨h, by omega⟩]
      simp only [Sched.addBarrier_create_entries, entriesOf_singleton, append_assoc]
  · rw [if_neg h, if_neg h, if_neg (fun hc => h hc.1)]
    simp only [entriesOf_nil, append_nil]

theorem foldOut_entries (barrier : Bool) (h : rank < 2 * A.rem) (sched : Sched) :
    (if barrier then (foldOut A.recvBuf A.count rank sched).addBarrier
      else foldOut A.recvBuf A.count rank sched).entries =
      sched.entries ++ entriesOf barrier (A.foldOutKinds rank) := by
  unfold foldOut foldOutKinds
  rw [if_pos h]
  cases barrier
  · rw [if_neg Bool.false_ne_true]
    split <;> rfl
  · rw [if_pos rfl]
    split <;> rw [Sched.addBarrier_create_entries, entriesOf_singleton]

/-! ## The rounds are good -/

theorem foldInKinds_good : KindsGood A.foldInKinds A.n :=
  have := A.two_mul_rem_le
  kindsGood_pairs (fun r hr => by omega) (fun _ => rfl) fun s d => by omega

theorem foldInReduceKinds_good : KindsGood A.foldInReduceKinds A.n :=
  have := A.two_mul_rem_le
  kindsGood_ite (fun r hr => by omega) fun _ => rfl

theorem foldOutKinds_good : KindsGood A.foldOutKinds A.n :=
  have := A.two_mul_rem_le
  kindsGood_pairs (fun r hr => by omega) (fun _ => rfl) fun s d => by omega

/-! ## What the rounds compute -/

section

variable {α : Type}

/-- **After folding in**, a rank that takes part holds the reduction of what it and its pair had. -/
theorem foldIn_exec (op : α → α → α) (σ : Nat → Mem α) (hi : i < A.count) :
    execRounds op [.ofKinds true A.foldInKinds, .ofKinds true A.foldInReduceKinds] σ (A.real v) (A.recvBuf.at i) =
      if v < A.rem then op (σ (2 * v + 1) (A.recvBuf.at i)) (σ (2 * v) (A.recvBuf.at i))
      else σ (v + A.rem) (A.recvBuf.at i) := by
  show exec op _ (exec op _ σ) (realRank A.rem v) _ = _
  unfold realRank
  by_cases hv : v < A.rem
  · rw [if_pos hv, if_pos hv, Nat.mul_comm v 2]
    have hsend : .send A.recvBuf A.count (2 * v + 1) ∈ A.foldInKinds (2 * v) := by
      rw [foldInKinds, if_pos (by omega), if_pos (by omega)]
      exact mem_singleton.mpr rfl
    have hrecv : A.foldInKinds (2 * v + 1) = [.recv foldTmp A.count (2 * v)] := by
      rw [foldInKinds, if_pos (by omega), if_neg (by omega)]
      rfl
    have hred : A.foldInReduceKinds (2 * v + 1) = [.reduceLocal foldTmp A.count A.recvBuf] :=
      if_pos ⟨by omega, by omega⟩
    rw [exec_reduceLocal op true _ hred, compReduce_at hi foldTmp_apart.disjoint,
      exec_recv op true σ foldInKinds_good hrecv hsend, store_load_at hi,
      store_load_of_notMem (Set.disjoint_right.mp foldTmp_apart.disjoint (at_mem_region.mpr hi))]
  · rw [if_neg hv, if_neg hv, exec_idle op true _ (if_neg (by omega)), exec_idle op true _ (if_neg (by omega))]

/-- **After folding out**, every rank holds what the ranks that took part held. -/
theorem foldOut_exec (op : α → α → α) (b : Bool) (σ : Nat → Mem α) {x : α} (hi : i < A.count)
    (hσ : ∀ v < 2 ^ A.log, σ (A.real v) (A.recvBuf.at i) = x) (hr : r < A.n) :
    exec op (.ofKinds b A.foldOutKinds) σ r (A.recvBuf.at i) = x := by
  have hsize := A.size_eq
  have hrem := A.rem_lt
  by_cases h : r < 2 * A.rem
  · have hodd : σ (2 * (r / 2) + 1) (A.recvBuf.at i) = x := by
      have := hσ (r / 2) (by omega)
      rwa [real, realRank, if_pos (by omega), Nat.mul_comm] at this
    by_cases h2 : r % 2 = 1
    · have hsend : A.foldOutKinds r = [.send A.recvBuf A.count (r - 1)] := by
        rw [foldOutKinds, if_pos h, if_pos h2]
      rw [exec_send op b σ hsend]
      rwa [show r = 2 * (r / 2) + 1 by omega]
    · have hsend : .send A.recvBuf A.count r ∈ A.foldOutKinds (r + 1) := by
        rw [foldOutKinds, if_pos (by omega), if_pos (by omega)]
        exact mem_singleton.mpr rfl
      have hrecv : A.foldOutKinds r = [.recv A.recvBuf A.count (r + 1)] := by
        rw [foldOutKinds, if_pos h, if_neg h2]
      rw [exec_recv op b σ foldOutKinds_good hrecv hsend, store_load_at hi]
      rwa [show r + 1 = 2 * (r / 2) + 1 by omega]
  · rw [exec_idle op b σ (if_neg h)]
    have := hσ (r - A.rem) (by omega)
    rwa [real, realRank, if_neg (by omega), Nat.sub_add_cancel (by omega)] at this

end

/-! ## A builder with its own steps in between -/

section

variable {main : CclBuffer → Nat → Sched → Option Sched} {mid : List SchedRound}

variable (A mid) in
def foldedRounds : List SchedRound :=
  [.ofKinds true (copyKinds A.sendBuf A.recvBuf A.count A.n)] ++
  [.ofKinds true A.foldInKinds, .ofKinds true A.foldInReduceKinds] ++ mid

variable (A) in
/-- What the steps in between must be: their rounds, for the ranks that take part. -/
structure MainRounds (main : CclBuffer → Nat → Sched → Option Sched) (mid : List SchedRound) : Prop where
  builds : ∀ v < 2 ^ A.log, ∀ s : Sched, s.num = 0 → s.allocs = 1 →
    ∃ s', main foldTmp v s = some s' ∧ s'.entries = s.entries ++ mid.flatMap (· (A.real v))
  idle : ∀ r, newRank A.rem r = none → mid.flatMap (· r) = []
  one : A.n = 1 → mid = []
  good : ∀ R ∈ mid, ∃ kinds, KindsGood kinds A.n ∧ R = .ofKinds true kinds

/-- **The builder makes the rounds**, at every rank. -/
theorem buildFolded_entries (h : A.MainRounds main mid) (hcount : 0 < A.count) (barrier : Bool) (hrank : rank < A.n) :
    ∃ s, buildFolded main barrier (A.sendBuf rank) A.recvBuf A.count A.comm rank (.new 0) = some s ∧
      s.entries = (A.foldedRounds mid ++ [ofKinds barrier A.foldOutKinds]).flatMap (· rank) := by
  have hrem : A.comm.size - A.comm.pof2 = A.rem := rfl
  simp only [buildFolded, if_neg hcount.ne', Sched.allocBuffer_of_pos _ hcount, Option.bind_eq_bind,
    Option.bind_some, hrem]
  generalize hcopy : copyIn (A.sendBuf rank) A.recvBuf A.count _ = s₁
  have hs₁ : s₁.entries = entriesOf true (copyKinds A.sendBuf A.recvBuf A.count A.n rank) := by
    rw [← hcopy, copyIn_entries A.sendBuf _ _ hrank]
    rfl
  have hnum : s₁.num = 0 := by rw [← hcopy, copyIn_num]; rfl
  have hallocs : s₁.allocs = 1 := by rw [← hcopy, copyIn_allocs]; rfl
  have hrounds : (A.foldedRounds mid ++ [ofKinds barrier A.foldOutKinds]).flatMap (· rank) =
      s₁.entries ++ (entriesOf true (A.foldInKinds rank) ++ entriesOf true (A.foldInReduceKinds rank)) ++
        mid.flatMap (· rank) ++ entriesOf barrier (A.foldOutKinds rank) := by
    rw [hs₁]
    simp only [foldedRounds, flatMap_append, flatMap_cons, flatMap_nil, append_nil,
      ofKinds]
  by_cases hone : A.comm.size = 1
  · refine ⟨s₁, if_pos hone, ?_⟩
    have hzero : A.rem = 0 := A.comm.rem_of_one hone
    rw [hrounds, h.one hone]
    simp [foldInKinds, foldInReduceKinds, foldOutKinds, hzero]
  · rw [if_neg hone]
    have hfold := foldIn_entries (A := A) rank s₁
    have hnew := foldIn_snd A.recvBuf foldTmp A.count A.rem rank s₁
    -- what lies in between, for a rank that takes part and for one that sits out
    obtain ⟨s₂, hmain, hs₂⟩ : ∃ s₂, ((foldIn A.recvBuf foldTmp A.count A.rem rank s₁).2.elim
          (some (foldIn A.recvBuf foldTmp A.count A.rem rank s₁).1)
          fun newrank => main foldTmp newrank (foldIn A.recvBuf foldTmp A.count A.rem rank s₁).1) = some s₂ ∧
        s₂.entries = (foldIn A.recvBuf foldTmp A.count A.rem rank s₁).1.entries ++ mid.flatMap (· rank) := by
      rw [hnew]
      cases hv : newRank A.rem rank with
      | none => exact ⟨_, rfl, by rw [h.idle rank hv, append_nil]⟩
      | some v =>
        obtain rfl := realRank_of_newRank hv
        refine h.builds v (lt_of_realRank_lt A.comm.rem_lt.le (A.comm.size_eq ▸ hrank)) _ ?_ ?_
        · rw [foldIn_num, hnum]
        · rw [foldIn_allocs, hallocs]
    refine ⟨if rank < 2 * A.rem then
      if barrier then (foldOut A.recvBuf A.count rank s₂).addBarrier else foldOut A.recvBuf A.count rank s₂
      else s₂, ?_, ?_⟩
    · refine (congrArg (Option.bind · _) hmain).trans ?_
      show (if _ then some _ else some _) = _
      split <;> rfl
    · rw [hrounds, ← hfold, ← hs₂]
      split
      next hlt => exact foldOut_entries barrier hlt s₂
      next hlt => rw [foldOutKinds, if_neg hlt, entriesOf_nil, append_nil]

theorem foldedRounds_good (h : A.MainRounds main mid) {R : SchedRound} (hR : R ∈ A.foldedRounds mid) :
    ∃ kinds, KindsGood kinds A.n ∧ R = .ofKinds true kinds := by
  rcases mem_append.mp hR with hR | hR
  · simp only [cons_append, nil_append, mem_cons, not_mem_nil, or_false] at hR
    rcases hR with rfl | rfl | rfl
    · exact ⟨_, copyKinds_good .., rfl⟩
    · exact ⟨_, foldInKinds_good, rfl⟩
    · exact ⟨_, foldInReduceKinds_good, rfl⟩
  · exact h.good R hR

variable {α : Type} (op : α → α → α) [Std.Commutative op] [Std.Associative op]

variable (A mid) in
/-- The rounds reduce over the ranks that take part. -/
def ReducesFolded : Prop :=
  ∀ (σ : Nat → Mem α), ∀ v < 2 ^ A.log, ∀ i < A.count,
    Reduces op (fun u => σ (A.real u) (A.recvBuf.at i)) (Finset.range (2 ^ A.log))
      (execRounds op mid σ (A.real v) (A.recvBuf.at i))

/-- **What the rounds leave**, if the steps in between reduce over the ranks that take part. -/
theorem foldedRounds_exec (barrier : Bool) (hmid : A.ReducesFolded mid op) (hi : i < A.count) (σ : Nat → Mem α)
    (hr : r < A.n) : execRounds op (A.foldedRounds mid ++ [ofKinds barrier A.foldOutKinds]) σ r (A.recvBuf.at i) =
      reduceRange op A.n fun q => σ q ((A.sendBuf q).at i) := by
  unfold foldedRounds
  rw [execRounds_append, execRounds_append, execRounds_append]
  generalize hσ₁ : execRounds op [.ofKinds true (copyKinds A.sendBuf A.recvBuf A.count A.n)] σ = σ₁
  generalize hσ₂ : execRounds op [.ofKinds true A.foldInKinds, .ofKinds true A.foldInReduceKinds] σ₁ = σ₂
  have h₁ : ∀ q < A.n, σ₁ q (A.recvBuf.at i) = σ q ((A.sendBuf q).at i) := by
    intro q hq
    rw [← hσ₁]
    exact copy_exec op true σ hq hi
  have h₂ : ∀ v < 2 ^ A.log, Reduces op (fun q => σ q ((A.sendBuf q).at i)) (folded A.rem v)
      (σ₂ (A.real v) (A.recvBuf.at i)) := by
    intro v hv
    have hsize := A.size_eq
    rw [← hσ₂, foldIn_exec op σ₁ hi]
    split
    next h =>
      rw [h₁ _ (by omega), h₁ _ (by omega)]
      exact reduces_pair (fun q => σ q ((A.sendBuf q).at i)) h
    next h =>
      rw [h₁ _ (by omega)]
      exact reduces_single (fun q => σ q ((A.sendBuf q).at i)) (not_lt.mp h)
  refine foldOut_exec op barrier _ hi (fun v hv => ?_) hr
  refine Reduces.eq_reduceRange A.comm.size_pos ?_
  rw [A.size_eq]
  exact (hmid σ₂ v hv i hi).unfold A.rem_lt.le h₂

/-- **The contract of a builder with its own steps in between.** -/
theorem MainRounds.contract (h : A.MainRounds main mid) (hcount : 0 < A.count) (barrier : Bool)
    (hmid : A.ReducesFolded mid op) (tag : Nat) (eager : Nat → Nat → Bool) (mem : Nat → Mem α) :
    ∃ sched : Nat → Sched,
      (∀ r < A.n, buildFolded main barrier (A.sendBuf r) A.recvBuf A.count A.comm r (.new 0) = some (sched r)) ∧
      ((schedNet op A.n tag eager sched).Completes mem fun s => ∀ r < A.n, ∀ i < A.count,
        s.mem r (A.recvBuf.at i) = reduceRange op A.n fun q => mem q ((A.sendBuf q).at i)) ∧
      MessagesMatch A.n sched := by
  have hgood : ∀ R ∈ A.foldedRounds mid ++ [ofKinds barrier A.foldOutKinds], R.IsGood A.n := by
    intro R hR
    rcases mem_append.mp hR with hR | hR
    · obtain ⟨kinds, hk, rfl⟩ := foldedRounds_good h hR
      exact hk.isGood true
    · rw [mem_singleton.mp hR]
      exact foldOutKinds_good.isGood barrier
  have hclosed : ∀ R ∈ A.foldedRounds mid, R.Closed := by
    intro R hR
    obtain ⟨kinds, -, rfl⟩ := foldedRounds_good h hR
    exact closed_ofKinds kinds
  obtain ⟨sched, hbuild, hrun, hcnts⟩ := contract_of_rounds (fun r hr => buildFolded_entries h hcount barrier hr)
    hgood (raceFree_of_closed_last hgood hclosed op tag) eager mem
  refine ⟨sched, hbuild, hrun.imp fun s hs r hr i hi => ?_, hcnts⟩
  rw [hs r]
  exact foldedRounds_exec op barrier hmid hi mem hr

end

end AllreduceCall

end OneCcl
