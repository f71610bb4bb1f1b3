import OneCcl.Comm.Split

/-!
# Splitting a communicator on the two transports

`atl_mpi_comm::comm_split` leaves the order of the new ranks to `MPI_Comm_split`: by key, and by the rank in the parent
where keys are equal. `atl_ofi_comm::comm_split` does the work itself. It gathers the colors of all ranks of the parent
and takes those of its own color in the order of the parent; it is given the key and does not use it.

A process goes through splits of splits. What it holds after each is a `Member`, with the ranks of the members in the
outermost communicator beside the maps of the transport. On either transport all members of a communicator hold the same
maps, and on OFI `rank2proc` is that of the outermost communicator after all `rank2rank` (`ofi_rank2proc`). On OFI the ranks
stay in the order of the outermost communicator (`ofi_origin_sorted`), so the order is that of `MPI_Comm_split` just when
no key asks for another one (`comm_split_right_iff`).
-/

namespace OneCcl

open List

/-- What a process holds of a communicator: its rank, and for every rank the rank in the parent and the process. -/
structure AtlComm where
  rank : Nat
  rank2rank : List Nat
  rank2proc : List Nat
  deriving DecidableEq, Repr

/-- `get_size()`. -/
def AtlComm.size (c : AtlComm) : Nat := c.rank2rank.length

/-- The communicator the constructor of `atl_ofi_comm` fills, with its coordinates among the processes of the host. -/
structure OfiSplit extends AtlComm where
  localIdx : Nat
  localCount : Nat
  deriving DecidableEq, Repr

section

variable (parent : AtlComm) (color : Nat → Int) (hash : Nat → Nat)

/-- The loop of the constructor over the first `k` records of the parent's ranks. -/
def ofiSplitLoop : Nat → OfiSplit
  | 0 => ⟨⟨0, [], []⟩, 0, 0⟩
  | k + 1 =>
    let c := ofiSplitLoop k
    if color k = color parent.rank then
      let rank2proc := c.rank2proc ++ [parent.rank2proc.getD k 0]
      let rank2rank := c.rank2rank ++ [k]
      let localCount := if hash k = hash parent.rank then c.localCount + 1 else c.localCount
      if k = parent.rank then ⟨⟨rank2proc.length - 1, rank2rank, rank2proc⟩, localCount - 1, localCount⟩
      else ⟨⟨c.rank, rank2rank, rank2proc⟩, c.localIdx, localCount⟩
    else c

/-- `atl_proc_coord_t::validate`. -/
def OfiSplit.validate (c : OfiSplit) : Bool :=
  c.rank < c.size && c.localIdx < c.localCount && 1 ≤ c.size && (1 ≤ c.localCount && c.localCount ≤ c.size)

/-- `atl_ofi_comm::comm_split`; the constructor throws where the coordinates are not valid. -/
def atlOfiCommSplit : Option AtlComm :=
  let c := ofiSplitLoop parent color hash parent.size
  if c.validate then some c.toAtlComm else none

end

/-- The order `MPI_Comm_split` gives the ranks of a color. -/
def mpiOrder (key : Nat → Int) (ranks : List Nat) : List Nat :=
  ranks.mergeSort fun a b => decide (key a < key b ∨ (key a = key b ∧ a ≤ b))

/-- `atl_mpi_comm::comm_split`: `rank2rank` is gathered in the new communicator. The map of processes is not used on this
transport. -/
def atlMpiCommSplit (parent : AtlComm) (color key : Nat → Int) : AtlComm :=
  let order := mpiOrder key ((range parent.size).filter fun r => color r = color parent.rank)
  ⟨order.idxOf parent.rank, order, []⟩

/-! ## Splits of splits -/

/-- The colors and keys of a split. A process passes its own; it is named by its rank in the outermost communicator. -/
structure SplitLevel where
  color : Nat → Int
  key : Nat → Int

/-- The transports. -/
inductive Transport where
  | ofi
  | mpi
  deriving DecidableEq, Repr

/-- A process in a communicator, and the ranks of the members in the outermost one. -/
structure Member where
  comm : AtlComm
  origin : List Nat

namespace Member

/-- What the rank of a member in the parent says of it. -/
def ask {α : Type} (m : Member) (f : Nat → α) (r : Nat) : α := f (m.origin.getD r 0)

def base (procs : List Nat) (p : Nat) : Member := ⟨⟨p, range procs.length, procs⟩, range procs.length⟩

/-- `comm_split` of a transport. -/
def split (T : Transport) (hash : Nat → Nat) (l : SplitLevel) (m : Member) : Option Member :=
  let comm :=
    match T with
    | .ofi => atlOfiCommSplit m.comm (m.ask l.color) (m.ask hash)
    | .mpi => some (atlMpiCommSplit m.comm (m.ask l.color) (m.ask l.key))
  comm.map fun c => ⟨c, c.rank2rank.map fun r => m.origin.getD r 0⟩

end Member

/-- A process after some splits, the last one first. -/
def memberAt (T : Transport) (procs : List Nat) (hash : Nat → Nat) : List SplitLevel → Nat → Option Member
  | [], p => some (.base procs p)
  | l :: ls, p => (memberAt T procs hash ls p).bind (Member.split T hash l)

/-! ## The loop of the constructor -/

section

variable (parent : AtlComm) (color : Nat → Int) (hash : Nat → Nat)

/-- The ranks of the parent that have the color of this one. -/
def ownColor (r : Nat) : Bool := color r = color parent.rank

def ownHost (r : Nat) : Bool := ownColor parent color r && decide (hash r = hash parent.rank)

/-- What the loop has found in the first `k` records. -/
structure OfiSplit.Scanned (k : Nat) (c : OfiSplit) : Prop where
  ranks : c.rank2rank = (range k).filter (ownColor parent color)
  procs : c.rank2proc = ((range k).filter (ownColor parent color)).map fun r => parent.rank2proc.getD r 0
  hosts : c.localCount = (range k).countP (ownHost parent color hash)
  self : parent.rank < k → c.rank = (range parent.rank).countP (ownColor parent color) ∧
    c.localIdx = (range parent.rank).countP (ownHost parent color hash)

theorem ofiSplitLoop_scanned (k : Nat) : (ofiSplitLoop parent color hash k).Scanned parent color hash k := by
  induction k with
  | zero => exact ⟨rfl, rfl, rfl, fun h => absurd h (Nat.not_lt_zero _)⟩
  | succ k ih =>
    unfold ofiSplitLoop
    have hranks : (range (k + 1)).filter (ownColor parent color) =
        (ofiSplitLoop parent color hash k).rank2rank ++ [k].filter (ownColor parent color) := by
      rw [range_succ, filter_append, ih.ranks]
    have hhosts : (range (k + 1)).countP (ownHost parent color hash) =
        (ofiSplitLoop parent color hash k).localCount + [k].countP (ownHost parent color hash) := by
      rw [range_succ, countP_append, ih.hosts]
    by_cases hcolor : color k = color parent.rank
    · have hown : ownColor parent color k = true := decide_eq_true hcolor
      have hhost : [k].countP (ownHost parent color hash) = if hash k = hash parent.rank then 1 else 0 := by
        simp [ownHost, hown]
      rw [if_pos hcolor]
      by_cases hself : k = parent.rank
      · subst hself
        rw [if_pos rfl]
        refine ⟨?_, ?_, ?_, fun _ => ⟨?_, ?_⟩⟩
        · rw [hranks, filter_cons_of_pos hown, filter_nil]
        · rw [hranks, filter_cons_of_pos hown, filter_nil, map_append, ih.ranks, ih.procs]
          rfl
        · rw [hhosts, hhost, if_pos rfl, if_pos rfl]
        · rw [length_append, ih.procs, length_map, ← countP_eq_length_filter]
          rfl
        · rw [if_pos rfl, ih.hosts]
          rfl
      · rw [if_neg hself]
        refine ⟨?_, ?_, ?_, fun h => ih.self (by omega)⟩
        · rw [hranks, filter_cons_of_pos hown, filter_nil]
        · rw [hranks, filter_cons_of_pos hown, filter_nil, map_append, ih.ranks, ih.procs]
          rfl
        · rw [hhosts, hhost]
          split <;> rfl
    · have hown : ¬ ownColor parent color k = true := fun h => hcolor (of_decide_eq_true h)
      have hne : k ≠ parent.rank := fun h => hcolor (congrArg color h)
      rw [if_neg hcolor]
      refine ⟨?_, ?_, ?_, fun h => ih.self (by omega)⟩
      · rw [hranks, filter_cons_of_neg hown, filter_nil, append_nil]
      · rw [hranks, filter_cons_of_neg hown, filter_nil, append_nil, ih.ranks, ih.procs]
      · rw [hhosts]
        simp [ownHost, hown]

theorem countP_range_lt {p : Nat → Bool} {k n : Nat} (hk : k < n) (hp : p k = true) :
    (range k).countP p < (range n).countP p := by
  obtain ⟨d, rfl⟩ : ∃ d, n = k + 1 + d := ⟨n - (k + 1), by omega⟩
  rw [range_add, countP_append, range_succ, countP_append, countP_singleton, if_pos hp]
  omega

theorem atlOfiCommSplit_eq (hrank : parent.rank < parent.size) : atlOfiCommSplit parent color hash =
    some ⟨(range parent.rank).countP (ownColor parent color),
      (range parent.size).filter (ownColor parent color),
      ((range parent.size).filter (ownColor parent color)).map fun r => parent.rank2proc.getD r 0⟩ := by
  have h := ofiSplitLoop_scanned parent color hash parent.size
  obtain ⟨hself, hlocal⟩ := h.self hrank
  have hown : ownColor parent color parent.rank = true := decide_eq_true rfl
  have hhost : ownHost parent color hash parent.rank = true := by
    rw [ownHost, hown]
    exact decide_eq_true rfl
  have hsize : (ofiSplitLoop parent color hash parent.size).size = (range parent.size).countP (ownColor parent color) := by
    rw [AtlComm.size, h.ranks, countP_eq_length_filter]
  have hlt := countP_range_lt hrank hown
  have hlt' := countP_range_lt hrank hhost
  have hle : (range parent.size).countP (ownHost parent color hash) ≤
      (range parent.size).countP (ownColor parent color) := by
    apply countP_mono_left
    intro r _ hr
    exact (Bool.and_eq_true_iff.mp hr).1
  have hvalid : (ofiSplitLoop parent color hash parent.size).validate = true := by
    unfold OfiSplit.validate
    simp only [Bool.and_eq_true, decide_eq_true_eq, hself, hsize, hlocal, h.hosts]
    omega
  unfold atlOfiCommSplit
  rw [if_pos hvalid, ← h.procs, ← h.ranks, ← hself]

end

/-! ## The order of `MPI_Comm_split` -/

theorem mpiOrder_perm (key : Nat → Int) (ranks : List Nat) : (mpiOrder key ranks).Perm ranks := mergeSort_perm ..

variable {ranks : List Nat}

theorem mpiOrder_eq_self_iff {key : Nat → Int} (hsorted : ranks.Pairwise (· < ·)) :
    mpiOrder key ranks = ranks ↔ ranks.Pairwise fun a b => key a ≤ key b := by
  constructor
  · intro h
    have hpair : (mpiOrder key ranks).Pairwise fun a b => decide (key a < key b ∨ (key a = key b ∧ a ≤ b)) = true :=
      pairwise_mergeSort (by simp only [decide_eq_true_eq]; omega)
        (by simp only [Bool.or_eq_true, decide_eq_true_eq]; omega) ranks
    rw [h] at hpair
    apply hpair.imp
    intro a b hab
    have := of_decide_eq_true hab
    omega
  · intro h
    apply mergeSort_of_pairwise
    apply (hsorted.and h).imp
    intro a b hab
    exact decide_eq_true (by omega)

/-! ## What a split leaves -/

namespace Transport

def order (T : Transport) (key : Nat → Int) (ranks : List Nat) : List Nat :=
  match T with
  | .ofi => ranks
  | .mpi => mpiOrder key ranks

theorem order_perm (T : Transport) (key : Nat → Int) (ranks : List Nat) : (T.order key ranks).Perm ranks := by
  cases T with
  | ofi => exact .refl _
  | mpi => exact mpiOrder_perm key ranks

/-- The map of processes, which only OFI keeps. -/
def procMap (T : Transport) (procs ranks : List Nat) : List Nat :=
  match T with
  | .ofi => ranks.map fun r => procs.getD r 0
  | .mpi => []

end Transport

namespace Member

/-- The ranks of a communicator whose processes have the color of process `p`. -/
def colorRanks (m : Member) (l : SplitLevel) (p : Nat) : List Nat :=
  (range m.comm.size).filter fun r => m.ask l.color r = l.color p

/-- The rank of a process in a communicator is its own. -/
structure Stands (m : Member) (p : Nat) : Prop where
  length : m.origin.length = m.comm.size
  own : m.origin[m.comm.rank]? = some p
  nodup : m.origin.Nodup

variable {m : Member} {p : Nat}

theorem Stands.rank_lt (h : m.Stands p) : m.comm.rank < m.comm.size := by
  rw [← h.length]
  exact (List.getElem?_eq_some_iff.mp h.own).1

theorem Stands.ask_rank {α : Type} (h : m.Stands p) (f : Nat → α) : m.ask f m.comm.rank = f p := by
  rw [ask, getD_eq_getElem?_getD, h.own]
  rfl

theorem Stands.getElem?_origin (h : m.Stands p) {r : Nat} (hr : r < m.comm.size) :
    m.origin[r]? = some (m.origin.getD r 0) := by
  have hlt : r < m.origin.length := by rwa [h.length]
  rw [getD_eq_getElem?_getD, getElem?_eq_getElem hlt]
  rfl

theorem Stands.rank_mem (h : m.Stands p) (l : SplitLevel) : m.comm.rank ∈ m.colorRanks l p :=
  mem_filter.mpr ⟨mem_range.mpr h.rank_lt, decide_eq_true (h.ask_rank l.color)⟩

theorem colorRanks_pairwise (m : Member) (l : SplitLevel) (p : Nat) : (m.colorRanks l p).Pairwise (· < ·) :=
  pairwise_lt_range.filter _

theorem Stands.split (h : m.Stands p) (T : Transport) (hash : Nat → Nat) (l : SplitLevel) :
    ∃ m', m.split T hash l = some m' ∧ m'.comm.rank2rank = T.order (m.ask l.key) (m.colorRanks l p) ∧
      m'.comm.rank2proc = T.procMap m.comm.rank2proc m'.comm.rank2rank ∧
      m'.comm.rank2rank[m'.comm.rank]? = some m.comm.rank ∧
      m'.origin = m'.comm.rank2rank.map fun r => m.origin.getD r 0 := by
  have hcolor : ownColor m.comm (m.ask l.color) = fun r => decide (m.ask l.color r = l.color p) := by
    funext r
    rw [ownColor, h.ask_rank]
  cases T with
  | ofi =>
    have hsplit := atlOfiCommSplit_eq m.comm (m.ask l.color) (m.ask hash) h.rank_lt
    refine ⟨_, congrArg (Option.map _) hsplit, ?_, rfl, ?_, rfl⟩
    · show (range m.comm.size).filter (ownColor m.comm (m.ask l.color)) = _
      rw [hcolor]
      rfl
    · exact getElem?_filter_range h.rank_lt (decide_eq_true rfl)
  | mpi =>
    have hranks : ((range m.comm.size).filter fun r => m.ask l.color r = m.ask l.color m.comm.rank) =
        m.colorRanks l p := by
      rw [colorRanks, h.ask_rank]
    refine ⟨_, rfl, ?_, rfl, ?_, rfl⟩
    · show mpiOrder _ _ = _
      rw [hranks]
      rfl
    · show (mpiOrder _ _)[(mpiOrder _ _).idxOf m.comm.rank]? = _
      rw [hranks]
      exact getElem?_idxOf ((mpiOrder_perm ..).mem_iff.mpr (h.rank_mem l))

variable {l : SplitLevel}

theorem Stands.mem_origin (h : m.Stands p) (hperm : ranks.Perm (m.colorRanks l p))
    {q : Nat} : q ∈ ranks.map (fun r => m.origin.getD r 0) ↔ q ∈ m.origin ∧ l.color q = l.color p := by
  rw [mem_map]
  constructor
  · rintro ⟨r, hr, rfl⟩
    obtain ⟨hlt, hc⟩ := mem_filter.mp (hperm.mem_iff.mp hr)
    exact ⟨mem_of_getElem? (h.getElem?_origin (mem_range.mp hlt)), of_decide_eq_true hc⟩
  · rintro ⟨hq, hc⟩
    obtain ⟨r, hr⟩ := getElem?_of_mem hq
    have hlt : r < m.comm.size := by
      rw [← h.length]
      exact (List.getElem?_eq_some_iff.mp hr).1
    have hget : m.origin.getD r 0 = q := by
      rw [getD_eq_getElem?_getD, hr]
      rfl
    refine ⟨r, hperm.mem_iff.mpr (mem_filter.mpr ⟨mem_range.mpr hlt, decide_eq_true ?_⟩), hget⟩
    rw [ask, hget]
    exact hc

theorem Stands.of_split (h : m.Stands p) {T : Transport} {hash : Nat → Nat} {m' : Member}
    (hsplit : m.split T hash l = some m') : m'.Stands p := by
  obtain ⟨m'', hsplit', hranks, -, hown, horigin⟩ := h.split T hash l
  cases hsplit.symm.trans hsplit'
  have hperm := T.order_perm (m.ask l.key) (m.colorRanks l p)
  rw [← hranks] at hperm
  refine ⟨?_, ?_, ?_⟩
  · rw [horigin, length_map]
    rfl
  · rw [horigin, getElem?_map, hown]
    exact congrArg some (h.ask_rank id)
  · rw [horigin]
    apply List.Nodup.map_on
    · intro r hr r' hr' heq
      have hlt := mem_range.mp (mem_filter.mp (hperm.mem_iff.mp hr)).1
      have hlt' := mem_range.mp (mem_filter.mp (hperm.mem_iff.mp hr')).1
      have hsome := (h.getElem?_origin hlt).trans ((congrArg some heq).trans (h.getElem?_origin hlt').symm)
      exact (getElem?_inj (by rwa [h.length]) h.nodup).mp hsome
    · exact hperm.nodup_iff.mpr (nodup_range.filter _)

end Member

/-! ## After any splits -/

section

variable (T : Transport) (procs : List Nat) (hash : Nat → Nat)

variable {p : Nat}

theorem Member.base_stands (hp : p < procs.length) : (Member.base procs p).Stands p where
  length := rfl
  own := getElem?_range hp
  nodup := nodup_range

theorem exists_memberAt (ls : List SplitLevel) (hp : p < procs.length) :
    ∃ m, memberAt T procs hash ls p = some m ∧ m.Stands p := by
  induction ls with
  | nil => exact ⟨_, rfl, Member.base_stands procs hp⟩
  | cons l ls ih =>
    obtain ⟨m, hm, hstands⟩ := ih
    obtain ⟨m', hsplit, -⟩ := hstands.split T hash l
    refine ⟨m', ?_, hstands.of_split hsplit⟩
    rw [memberAt, hm]
    exact hsplit

variable {T procs hash} {ls : List SplitLevel} {l : SplitLevel} {p q : Nat} {m m' : Member}

theorem memberAt_stands (hp : p < procs.length) (h : memberAt T procs hash ls p = some m) : m.Stands p := by
  obtain ⟨m', hm', hstands⟩ := exists_memberAt T procs hash ls hp
  cases h.symm.trans hm'
  exact hstands

theorem memberAt_cons (hp : p < procs.length) (h : memberAt T procs hash (l :: ls) p = some m') :
    ∃ m, memberAt T procs hash ls p = some m ∧ m.Stands p ∧ m.split T hash l = some m' := by
  obtain ⟨m, hm, hsplit⟩ := Option.bind_eq_some_iff.mp h
  exact ⟨m, hm, memberAt_stands hp hm, hsplit⟩

theorem mem_origin (hp : p < procs.length) (h : memberAt T procs hash ls p = some m) :
    q ∈ m.origin ↔ q < procs.length ∧ ∀ l ∈ ls, l.color q = l.color p := by
  induction ls generalizing m with
  | nil =>
    cases h
    simp [Member.base]
  | cons l ls ih =>
    obtain ⟨m₀, hm₀, hstands, hsplit⟩ := memberAt_cons hp h
    obtain ⟨m', hsplit', hranks, -, -, horigin⟩ := hstands.split T hash l
    cases hsplit.symm.trans hsplit'
    rw [horigin, hstands.mem_origin (hranks ▸ T.order_perm ..), ih hm₀, forall_mem_cons]
    tauto

theorem memberAt_same (hp : p < procs.length) (h : memberAt T procs hash ls p = some m) (hq : q ∈ m.origin)
    (h' : memberAt T procs hash ls q = some m') :
    m'.origin = m.origin ∧ m'.comm.rank2rank = m.comm.rank2rank ∧ m'.comm.rank2proc = m.comm.rank2proc := by
  obtain ⟨hqn, hcolors⟩ := (mem_origin hp h).mp hq
  induction ls generalizing m m' with
  | nil =>
    cases h
    cases h'
    exact ⟨rfl, rfl, rfl⟩
  | cons l ls ih =>
    obtain ⟨m₀, hm₀, hstands, hsplit⟩ := memberAt_cons hp h
    obtain ⟨m₁, hm₁, hstands', hsplit'⟩ := memberAt_cons hqn h'
    obtain ⟨hc, hcs⟩ := forall_mem_cons.mp hcolors
    obtain ⟨horigin, hranks, hprocs⟩ := ih hm₀ ((mem_origin hp hm₀).mpr ⟨hqn, hcs⟩) hm₁ hcs
    obtain ⟨n₀, hn₀, hranks₀, hprocs₀, -, horigin₀⟩ := hstands.split T hash l
    obtain ⟨n₁, hn₁, hranks₁, hprocs₁, -, horigin₁⟩ := hstands'.split T hash l
    cases hsplit.symm.trans hn₀
    cases hsplit'.symm.trans hn₁
    have hask : ∀ f : Nat → Int, m₁.ask f = m₀.ask f := by
      intro f
      funext r
      rw [Member.ask, Member.ask, horigin]
    have hsame : m'.comm.rank2rank = m.comm.rank2rank := by
      rw [hranks₁, hranks₀, hask, Member.colorRanks, Member.colorRanks, hask, hc, AtlComm.size, AtlComm.size, hranks]
    refine ⟨?_, hsame, ?_⟩
    · rw [horigin₁, horigin₀, hsame, horigin]
    · rw [hprocs₁, hprocs₀, hsame, hprocs]

theorem ofi_rank2proc (hp : p < procs.length) (h : memberAt .ofi procs hash ls p = some m) :
    m.comm.rank2proc = m.origin.map fun r => procs.getD r 0 := by
  induction ls generalizing m with
  | nil =>
    cases h
    apply ext_getElem?
    intro i
    simp only [Member.base, getElem?_map]
    by_cases hi : i < procs.length
    · rw [getElem?_range hi, Option.map_some, getD_eq_getElem?_getD, getElem?_eq_getElem hi]
      rfl
    · rw [getElem?_eq_none (by omega), getElem?_eq_none (by rw [length_range]; omega)]
      rfl
  | cons l ls ih =>
    obtain ⟨m₀, hm₀, hstands, hsplit⟩ := memberAt_cons hp h
    obtain ⟨m', hsplit', hranks, hprocs, -, horigin⟩ := hstands.split .ofi hash l
    cases hsplit.symm.trans hsplit'
    rw [hprocs, horigin, map_map]
    apply map_congr_left
    intro r hr
    rw [hranks] at hr
    have hlt := mem_range.mp (mem_filter.mp hr).1
    rw [ih hm₀, Function.comp_apply, getD_eq_getElem?_getD, getElem?_map, hstands.getElem?_origin hlt]
    rfl

theorem ofi_origin_sorted (hp : p < procs.length) (h : memberAt .ofi procs hash ls p = some m) :
    m.origin.Pairwise (· < ·) := by
  induction ls generalizing m with
  | nil =>
    cases h
    exact pairwise_lt_range
  | cons l ls ih =>
    obtain ⟨m₀, hm₀, hstands, hsplit⟩ := memberAt_cons hp h
    obtain ⟨m', hsplit', hranks, -, -, horigin⟩ := hstands.split .ofi hash l
    cases hsplit.symm.trans hsplit'
    rw [horigin, hranks, pairwise_map]
    apply (m₀.colorRanks_pairwise l p).imp_of_mem
    intro a b ha hb hab
    have hget := fun {r : Nat} (hr : r ∈ m₀.colorRanks l p) =>
      hstands.getElem?_origin (mem_range.mp (mem_filter.mp hr).1)
    obtain ⟨hla, heqa⟩ := List.getElem?_eq_some_iff.mp (hget ha)
    obtain ⟨hlb, heqb⟩ := List.getElem?_eq_some_iff.mp (hget hb)
    have := pairwise_iff_getElem.mp (ih hm₀) a b hla hlb hab
    rwa [heqa, heqb] at this

/-- A split on OFI gives the order of `MPI_Comm_split` to a process just when the keys of the members follow their
ranks. -/
theorem ofi_order_iff (hp : p < procs.length) (h : memberAt .ofi procs hash ls p = some m)
    (h' : memberAt .ofi procs hash (l :: ls) p = some m') : m'.comm.rank2rank = mpiOrder (m.ask l.key) (m.colorRanks l p) ↔
      ∀ a ∈ m'.origin, ∀ b ∈ m'.origin, a < b → l.key a ≤ l.key b := by
  obtain ⟨m₀, hm₀, hstands, hsplit⟩ := memberAt_cons hp h'
  cases h.symm.trans hm₀
  obtain ⟨m'', hsplit', hranks, -, -, horigin⟩ := hstands.split .ofi hash l
  cases hsplit.symm.trans hsplit'
  have hsorted := ofi_origin_sorted hp h'
  have hpair : (m.colorRanks l p).Pairwise (fun a b => m.ask l.key a ≤ m.ask l.key b) ↔
      m'.origin.Pairwise fun a b => l.key a ≤ l.key b := by
    rw [horigin, hranks, pairwise_map]
    rfl
  have horder : m'.comm.rank2rank = m.colorRanks l p := hranks
  rw [horder, eq_comm, mpiOrder_eq_self_iff (m.colorRanks_pairwise l p), hpair]
  constructor
  · intro hle a ha b hb hab
    obtain ⟨i, hi, rfl⟩ := getElem_of_mem ha
    obtain ⟨j, hj, rfl⟩ := getElem_of_mem hb
    refine pairwise_iff_getElem.mp hle i j hi hj ?_
    by_contra hji
    rcases (Nat.le_of_not_lt hji).lt_or_eq with hlt | rfl
    · exact absurd hab (Nat.lt_asymm (pairwise_iff_getElem.mp hsorted j i hj hi hlt))
    · exact absurd hab (lt_irrefl _)
  · intro hle
    apply hsorted.imp_of_mem
    intro a b ha hb hab
    exact hle a ha b hb hab

end

/-- Splits of splits that are right on both transports: a communicator has the processes of one color, each at its own
rank; the new ranks have the order of `MPI_Comm_split`; all members hold the same maps; and the processes that OFI keeps are
those of the outermost communicator. -/
structure SplitsRight (procs : List Nat) (hash : Nat → Nat) (levels : List SplitLevel) : Prop where
  members : ∀ T ls, ls <:+ levels → ∀ p < procs.length, ∃ m, memberAt T procs hash ls p = some m ∧
    m.origin[m.comm.rank]? = some p ∧ ∀ q, q ∈ m.origin ↔ q < procs.length ∧ ∀ l ∈ ls, l.color q = l.color p
  order : ∀ T l ls, l :: ls <:+ levels → ∀ p < procs.length, ∀ m m', memberAt T procs hash ls p = some m →
    memberAt T procs hash (l :: ls) p = some m' → m'.comm.rank2rank = mpiOrder (m.ask l.key) (m.colorRanks l p)
  same : ∀ T ls, ls <:+ levels → ∀ p < procs.length, ∀ m, memberAt T procs hash ls p = some m → ∀ q ∈ m.origin,
    ∀ m', memberAt T procs hash ls q = some m' →
      m'.comm.rank2rank = m.comm.rank2rank ∧ m'.comm.rank2proc = m.comm.rank2proc
  compose : ∀ ls, ls <:+ levels → ∀ p < procs.length, ∀ m, memberAt .ofi procs hash ls p = some m →
    m.comm.rank2proc = m.origin.map fun r => procs.getD r 0

/-- Splits of splits are right just when in every one, of two processes that have been together so far and stay so, the
one with the lower rank in the outermost communicator does not have the higher key. -/
theorem comm_split_right_iff (procs : List Nat) (hash : Nat → Nat) (levels : List SplitLevel) :
    SplitsRight procs hash levels ↔ ∀ l ls, l :: ls <:+ levels → ∀ a b, a < b → b < procs.length →
      (∀ l' ∈ l :: ls, l'.color a = l'.color b) → l.key a ≤ l.key b := by
  constructor
  · intro h l ls hls a b hab hb hcolors
    have ha : a < procs.length := hab.trans hb
    obtain ⟨m, hm, -⟩ := exists_memberAt .ofi procs hash ls ha
    obtain ⟨m', hm', -⟩ := exists_memberAt .ofi procs hash (l :: ls) ha
    apply (ofi_order_iff ha hm hm').mp (h.order .ofi l ls hls a ha m m' hm hm') a _ b _ hab
    · exact (mem_origin ha hm').mpr ⟨ha, fun _ _ => rfl⟩
    · exact (mem_origin ha hm').mpr ⟨hb, fun l' hl' => (hcolors l' hl').symm⟩
  · intro hkeys
    refine ⟨fun T ls _ p hp => ?_, fun T l ls hls p hp m m' hm hm' => ?_, fun T ls _ p hp m hm q hq m' hm' => ?_,
      fun ls _ p hp m hm => ofi_rank2proc hp hm⟩
    · obtain ⟨m, hm, hstands⟩ := exists_memberAt T procs hash ls hp
      exact ⟨m, hm, hstands.own, fun q => mem_origin hp hm⟩
    · cases T with
      | ofi =>
        refine (ofi_order_iff hp hm hm').mpr fun a ha b hb hab => ?_
        obtain ⟨-, hca⟩ := (mem_origin hp hm').mp ha
        obtain ⟨hbn, hcb⟩ := (mem_origin hp hm').mp hb
        exact hkeys l ls hls a b hab hbn fun l' hl' => (hca l' hl').trans (hcb l' hl').symm
      | mpi =>
        obtain ⟨m₀, hm₀, hstands, hsplit⟩ := memberAt_cons hp hm'
        cases hm.symm.trans hm₀
        obtain ⟨m'', hsplit', hranks, -⟩ := hstands.split .mpi hash l
        cases hsplit.symm.trans hsplit'
        exact hranks
    · exact (memberAt_same hp hm hq hm').2

/-- Two ranks of one color and keys the other way round: `MPI_Comm_split` turns them round, OFI does not. -/
theorem comm_split_ignores_key :
    (memberAt .ofi [0, 1] (fun _ => 0) [⟨fun _ => 0, fun p => 1 - p⟩] 0).map (·.comm) = some ⟨0, [0, 1], [0, 1]⟩ ∧
      mpiOrder (fun p => 1 - p) [0, 1] = [1, 0] ∧
      ¬ SplitsRight [0, 1] (fun _ => 0) [⟨fun _ => 0, fun p => 1 - p⟩] := by
  refine ⟨rfl, ?_, fun h => ?_⟩
  · simp [mpiOrder, mergeSort]
  · have hlt : 0 < [0, 1].length := by decide
    obtain ⟨m, hm, -⟩ := exists_memberAt .ofi [0, 1] (fun _ => 0) [] hlt
    obtain ⟨m', hm', -⟩ := exists_memberAt .ofi [0, 1] (fun _ => 0) [⟨fun _ => 0, fun p => 1 - p⟩] hlt
    have hkeys := (ofi_order_iff hlt hm hm').mp (h.order .ofi _ [] (suffix_refl _) 0 hlt m m' hm hm')
    have hmem : ∀ q < 2, q ∈ m'.origin := fun q hq => (mem_origin hlt hm').mpr ⟨hq, by simp⟩
    cases hkeys 0 (hmem 0 (by decide)) 1 (hmem 1 (by decide)) (by decide)

/-- Whatever the colors and keys: splits of splits give a process the communicator of those that had its colors, at its
own place, with the same maps at all members, and on OFI with the processes of the outermost one. -/
theorem nested_splits_agree (procs : List Nat) (hash : Nat → Nat) (ls : List SplitLevel) :
    (∀ T, ∀ p < procs.length, ∃ m, memberAt T procs hash ls p = some m ∧ m.origin[m.comm.rank]? = some p ∧
      (∀ q, q ∈ m.origin ↔ q < procs.length ∧ ∀ l ∈ ls, l.color q = l.color p) ∧
      ∀ q ∈ m.origin, ∃ m', memberAt T procs hash ls q = some m' ∧ m'.comm.rank2rank = m.comm.rank2rank ∧
        m'.comm.rank2proc = m.comm.rank2proc) ∧
    ∀ p < procs.length, ∀ m, memberAt .ofi procs hash ls p = some m →
      m.comm.rank2proc = m.origin.map (procs.getD · 0) ∧ m.origin.Pairwise (· < ·) := by
  refine ⟨fun T p hp => ?_, fun p hp m hm => ⟨ofi_rank2proc hp hm, ofi_origin_sorted hp hm⟩⟩
  obtain ⟨m, hm, hstands⟩ := exists_memberAt T procs hash ls hp
  refine ⟨m, hm, hstands.own, fun q => mem_origin hp hm, fun q hq => ?_⟩
  obtain ⟨m', hm', -⟩ := exists_memberAt T procs hash ls ((mem_origin hp hm).mp hq).1
  exact ⟨m', hm', (memberAt_same hp hm hq hm').2⟩

end OneCcl
