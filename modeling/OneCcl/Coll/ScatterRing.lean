import OneCcl.Coll.RootedRanks

/-!
# Broadcast by scatter and ring allgather

`ccl_coll_build_scatter_ring_allgather_bcast` on one buffer, and
`ccl_coll_build_scatter_ring_allgather_broadcast` from a send buffer to a receive buffer. The data is cut into one
block of `scatter_size` bytes for each rank. A binomial tree scatters them from the root, so that relative rank `v`
has block `v` at least, and then the blocks go round a ring.

In the scatter a rank posts a receive for all bytes from its own block to the end, and from then on takes them for
its own; it gets fewer in general, and may send on what it does not have. The ring brings everything a rank does not
have, so this does no harm.

Both builders are the same text but for the buffers and a test that skips a send to the root. A rank with relative rank
`v > 0` receives into `recv_buf` and sends from `send_buf`.

All sizes are in bytes. They are natural numbers here: a subtraction stops at `0`, where the code puts a negative
value back to `0` or tests for it.
-/

namespace OneCcl

open Async List Reduction Nat

/-! ## The builders -/

section

variable (nbytes scatterSize commSize rank relativeRank : Nat)

/-- The first loop of the scatter: up to the lowest bit of the relative rank, where the data comes from. Returns
`mask` and `curr_size`. -/
def scatterRecvLoop (recvBuf : CclBuffer) : Nat → Nat → Nat → Sched → Nat × Nat × Sched
  | 0, mask, currSize, sched => (mask, currSize, sched)
  | fuel + 1, mask, currSize, sched =>
    if mask < commSize then
      if relativeRank &&& mask ≠ 0 then
        let src := if rank < mask then rank + commSize - mask else rank - mask
        let recvSize := nbytes - relativeRank * scatterSize
        let sched :=
          if recvSize > 0 then
            (sched.create (.recv (recvBuf + relativeRank * scatterSize) recvSize src)).addBarrier
          else sched
        (mask, recvSize, sched)
      else scatterRecvLoop recvBuf fuel (mask <<< 1) currSize sched
    else (mask, currSize, sched)

/-- The second loop of the scatter: down the bits below, sending. -/
def scatterSendLoop (sendBuf : CclBuffer) (skip : Nat → Bool) : Nat → Nat → Nat → Sched → Sched
  | 0, _, _, sched => sched
  | fuel + 1, mask, currSize, sched =>
    if mask > 0 then
      if relativeRank + mask < commSize then
        let sendSize := currSize - scatterSize * mask
        if sendSize > 0 then
          let dst := rank + mask
          let dst := if dst ≥ commSize then dst - commSize else dst
          let sched :=
            if skip dst then sched
            else sched.create (.send (sendBuf + scatterSize * (relativeRank + mask)) sendSize dst)
          scatterSendLoop sendBuf skip fuel (mask >>> 1) (currSize - sendSize) sched.addBarrier
        else scatterSendLoop sendBuf skip fuel (mask >>> 1) currSize sched
      else scatterSendLoop sendBuf skip fuel (mask >>> 1) currSize sched
    else sched

end

def scatterFor (sendBuf recvBuf : CclBuffer) (skip : Nat → Bool) (root nbytes : Nat) (comm : CclComm) (rank : Nat)
    (sched : Sched) : Sched :=
  let commSize := comm.size
  let localRoot := root
  let relativeRank := if rank ≥ localRoot then rank - localRoot else rank + commSize - localRoot
  let scatterSize := (nbytes + commSize - 1) / commSize
  let currSize := if rank = localRoot then nbytes else 0
  let (mask, currSize, sched) :=
    scatterRecvLoop nbytes scatterSize commSize rank relativeRank recvBuf commSize 1 currSize sched
  scatterSendLoop scatterSize commSize rank relativeRank sendBuf skip (commSize + 1) (mask >>> 1) currSize sched

/-- `ccl_coll_build_scatter_for_bcast`. -/
def cclCollBuildScatterForBcast (tmpBuf : CclBuffer) (root nbytes : Nat) (comm : CclComm) (rank : Nat)
    (sched : Sched) : Sched :=
  scatterFor tmpBuf tmpBuf (fun _ => false) root nbytes comm rank sched

/-- `ccl_coll_build_scatter_for_broadcast`, which skips a send to the root in place. -/
def cclCollBuildScatterForBroadcast (sendBuf recvBuf : CclBuffer) (root nbytes : Nat) (comm : CclComm) (rank : Nat)
    (sched : Sched) : Sched :=
  let isInplace := decide (sendBuf = recvBuf)
  scatterFor sendBuf recvBuf (fun dst => isInplace && decide (dst = root)) root nbytes comm rank sched

/-- The ring of either builder, with the number of steps left. -/
def ringAllgatherLoop (sendBuf recvBuf : CclBuffer) (nbytes scatterSize commSize root left right : Nat) :
    Nat → Nat → Nat → Sched → Sched
  | 0, _, _, sched => sched
  | i + 1, j, jnext, sched =>
    let relJ := (j + commSize - root) % commSize
    let relJnext := (jnext + commSize - root) % commSize
    let leftCount := min scatterSize (nbytes - relJnext * scatterSize)
    let leftDisp := relJnext * scatterSize
    let rightCount := min scatterSize (nbytes - relJ * scatterSize)
    let rightDisp := relJ * scatterSize
    let sched := sched.create (.send (sendBuf + rightDisp) rightCount right)
    let sched := (sched.create (.recv (recvBuf + leftDisp) leftCount left)).addBarrier
    ringAllgatherLoop sendBuf recvBuf nbytes scatterSize commSize root left right i jnext
      ((commSize + jnext - 1) % commSize) sched

/-- What follows the scatter in either builder. -/
def ringAllgather (sendBuf recvBuf : CclBuffer) (root nbytes : Nat) (comm : CclComm) (rank : Nat) (sched : Sched) :
    Sched :=
  let commSize := comm.size
  let scatterSize := (nbytes + commSize - 1) / commSize
  let left := (commSize + rank - 1) % commSize
  let right := (rank + 1) % commSize
  ringAllgatherLoop sendBuf recvBuf nbytes scatterSize commSize root left right (commSize - 1) rank left sched

/-- `ccl_coll_build_scatter_ring_allgather_bcast`. -/
def cclCollBuildScatterRingAllgatherBcast (buf : CclBuffer) (count dtypeSize root : Nat) (comm : CclComm) (rank : Nat)
    (sched : Sched) : Option Sched :=
  if comm.size = 1 then some sched
  else
    let nbytes := dtypeSize * count
    let sched := cclCollBuildScatterForBcast buf root nbytes comm rank sched
    some (ringAllgather buf buf root nbytes comm rank sched)

/-- `ccl_coll_build_scatter_ring_allgather_broadcast`. -/
def cclCollBuildScatterRingAllgatherBroadcast (sendBuf recvBuf : CclBuffer) (count dtypeSize root : Nat)
    (comm : CclComm) (rank : Nat) (sched : Sched) : Option Sched :=
  if comm.size = 1 then some sched
  else
    let nbytes := dtypeSize * count
    let sched := cclCollBuildScatterForBroadcast sendBuf recvBuf root nbytes comm rank sched
    let sched := ringAllgather sendBuf recvBuf root nbytes comm rank sched
    if rank = root ∧ sendBuf ≠ recvBuf then
      some (sched.create (.copy sendBuf recvBuf nbytes)).addBarrier
    else some sched

/-! ## Blocks -/

/-- `scatter_size`. -/
def scatterSize (n nbytes : Nat) : Nat := (nbytes + n - 1) / n

section

variable {n nbytes : Nat}

theorem le_mul_scatterSize (hn : 0 < n) (nbytes : Nat) : nbytes ≤ n * scatterSize n nbytes := by
  have h := div_add_mod (nbytes + n - 1) n
  have hlt := mod_lt (nbytes + n - 1) hn
  unfold scatterSize
  omega

theorem scatterSize_pos (hn : 0 < n) (h : 0 < nbytes) : 0 < scatterSize n nbytes :=
  div_pos (by omega) hn

theorem scatterSize_lt (hn : 2 ≤ n) (h : 2 ≤ nbytes) : scatterSize n nbytes < nbytes := by
  refine (div_lt_iff_lt_mul (by omega)).mpr ?_
  obtain ⟨m, rfl⟩ : ∃ m, n = m + 2 := ⟨n - 2, by omega⟩
  obtain ⟨k, rfl⟩ : ∃ k, nbytes = k + 2 := ⟨nbytes - 2, by omega⟩
  rw [add_mul, mul_add]
  omega

end

/-- What the ranks of a broadcast pass. -/
structure BcastCall extends Rooted where
  sendBuf : Nat → CclBuffer
  recvBuf : CclBuffer
  nbytes : Nat

namespace BcastCall

variable (A : BcastCall)

/-- The length of the blocks. -/
def scatterSize : Nat := OneCcl.scatterSize A.n A.nbytes

def blockSize (b : Nat) : Nat := min A.scatterSize (A.nbytes - b * A.scatterSize)

/-- Relative rank `u` sends in the step of bit `k` of the scatter. -/
def Sends (k u : Nat) : Prop := u % 2 ^ (k + 1) = 0 ∧ u + 2 ^ k < A.n ∧ (u + 2 ^ k) * A.scatterSize < A.nbytes

instance (k u : Nat) : Decidable (A.Sends k u) := inferInstanceAs (Decidable (_ ∧ _ ∧ _))

/-- What it takes for its own when it comes to bit `k`: after a send, just up to what it sent. -/
def currSize (k u : Nat) : Nat := if A.Sends k u then 2 ^ k * A.scatterSize else A.nbytes - u * A.scatterSize

/-- How much relative rank `u` sends in the step of bit `k`. -/
def sendSize (k u : Nat) : Nat := A.currSize (k + 1) u - A.scatterSize * 2 ^ k

variable {A}

section

variable {k u : Nat}

theorem scatterSize_pos (h : 0 < A.nbytes) : 0 < A.scatterSize := OneCcl.scatterSize_pos A.comm.size_pos h

theorem currSize_of_sends (h : A.Sends k u) : A.currSize k u = 2 ^ k * A.scatterSize := if_pos h

theorem currSize_of_not (h : ¬ A.Sends k u) : A.currSize k u = A.nbytes - u * A.scatterSize := if_neg h

theorem sendSize_eq : A.sendSize k u =
    if A.Sends (k + 1) u then 2 ^ k * A.scatterSize else A.nbytes - (u + 2 ^ k) * A.scatterSize := by
  unfold sendSize currSize
  split
  · rw [pow_succ, mul_comm A.scatterSize, mul_right_comm]
    omega
  · rw [add_mul, mul_comm A.scatterSize]
    omega

theorem Sends.mul_lt (h : A.Sends (k + 1) u) : (u + 2 ^ k) * A.scatterSize + 2 ^ k * A.scatterSize < A.nbytes := by
  have := h.2.2
  rw [pow_succ, mul_two, ← add_assoc, add_mul] at this
  exact this

theorem sendSize_pos_iff : 0 < A.sendSize k u ↔ (u + 2 ^ k) * A.scatterSize < A.nbytes := by
  rw [sendSize_eq]
  split
  next h =>
    have hlt := h.mul_lt
    have hpos : 0 < 2 ^ k * A.scatterSize := Nat.mul_pos (Nat.two_pow_pos k) (scatterSize_pos (by omega))
    omega
  next => omega

theorem sendSize_le : A.sendSize k u ≤ A.nbytes - (u + 2 ^ k) * A.scatterSize := by
  rw [sendSize_eq]
  split
  next h =>
    have := h.mul_lt
    omega
  next => exact le_rfl

theorem le_sendSize : min (2 ^ k * A.scatterSize) (A.nbytes - (u + 2 ^ k) * A.scatterSize) ≤ A.sendSize k u := by
  rw [sendSize_eq]
  split
  · exact min_le_left ..
  · exact min_le_right ..

theorem currSize_of_lowest_bit (hhalf : u % 2 ^ (k + 1) = 2 ^ k) : A.currSize k u = A.nbytes - u * A.scatterSize := by
  apply currSize_of_not
  intro h
  have := h.1
  rw [hhalf] at this
  exact absurd this ((Nat.two_pow_pos k).ne')

theorem currSize_of_le (h : A.n ≤ 2 ^ k) : A.currSize k u = A.nbytes - u * A.scatterSize := by
  apply currSize_of_not
  intro hs
  have := hs.2.1
  omega

end

/-! ## The rounds -/

section

variable (A)

/-- What relative rank `v` does in the step of bit `k` of the scatter. -/
def scatterKind (k v : Nat) : Option EntryKind :=
  if v % 2 ^ (k + 1) = 2 ^ k then
    if v * A.scatterSize < A.nbytes then
      some (.recv (A.recvBuf + v * A.scatterSize) (A.nbytes - v * A.scatterSize) (A.rank (v - 2 ^ k)))
    else none
  else if A.Sends k v then
    some (.send (A.sendBuf (A.rank v) + A.scatterSize * (v + 2 ^ k)) (A.sendSize k v) (A.rank (v + 2 ^ k)))
  else none

/-- What rank `r` does in step `t` of the ring: it sends the block that is `t` back from its own, and receives the
one before that. -/
def blockSwap (t r : Nat) : Option Swap :=
  if r < A.n then
    let v := A.rel r
    let b := rotDown A.n v t
    let b' := rotDown A.n v (t + 1)
    some ⟨.recv (A.recvBuf + b' * A.scatterSize) (A.blockSize b') (rotDown A.n r 1),
      A.sendBuf r + b * A.scatterSize, rotUp A.n r 1, A.blockSize b, rotDown A.n r 1, A.blockSize b'⟩
  else none

/-- The last copy, at a root that is not in place. -/
def rootCopyKinds (r : Nat) : List EntryKind :=
  if r = A.root ∧ A.sendBuf r ≠ A.recvBuf then [.copy (A.sendBuf r) A.recvBuf A.nbytes] else []

abbrev scatterRound (k : Nat) : SchedRound := .ofKinds true (A.kinds (A.scatterKind k))

abbrev ringRound (t : Nat) : SchedRound := .ofKinds true (swapKinds true (A.blockSwap t))

/-- The rounds of the scatter: the bits from above. There is nothing to do for the bits above the size. -/
def scatterRounds (m : Nat) : List SchedRound := (range m).reverse.map A.scatterRound

def ringRounds (m : Nat) : List SchedRound := (range m).map A.ringRound

def broadcastRounds : List SchedRound :=
  A.scatterRounds A.n ++ A.ringRounds (A.n - 1) ++ [.ofKinds true A.rootCopyKinds]

/-- The entries of relative rank `v` in the step of bit `k`. -/
def scatterEntries (k v : Nat) : List SchedEntry := entriesOf true (A.scatterKind k v).toList

end

/-! ## What the builders leave -/

section

variable {j k v m r : Nat} {skip : Nat → Bool}

theorem scatterEntries_of_lowest_bit (h : v % 2 ^ (k + 1) = 2 ^ k) (hkj : k < j) : A.scatterEntries j v = [] := by
  rw [scatterEntries, scatterKind, if_neg, if_neg]
  · rfl
  · intro hs
    exact mod_two_pow_ne_of_half h (lt_succ_of_lt hkj) hs.1
  · intro hhalf
    exact mod_two_pow_ne_of_half h hkj (mod_two_pow_of_half hhalf)

theorem scatterEntries_zero (h : A.n ≤ 2 ^ k) : A.scatterEntries k 0 = [] := by
  rw [scatterEntries, scatterKind, if_neg, if_neg]
  · rfl
  · intro hs
    have := hs.2.1
    omega
  · rw [zero_mod]
    exact (Nat.two_pow_pos k).ne

theorem scatterRecvLoop_zero (buf : CclBuffer) (nbytes ss n rank fuel : Nat) (h : n ≤ 2 ^ (k + fuel)) (cur : Nat)
    (sched : Sched) : ∃ K ≤ k + fuel, n ≤ 2 ^ K ∧
      scatterRecvLoop nbytes ss n rank 0 buf fuel (2 ^ k) cur sched = (2 ^ K, cur, sched) := by
  induction fuel generalizing k with
  | zero => exact ⟨k, le_rfl, h, rfl⟩
  | succ fuel ih =>
    rw [scatterRecvLoop]
    by_cases hlt : 2 ^ k < n
    · rw [if_pos hlt, if_neg (not_not_intro (zero_and _)), shiftLeft_eq, pow_one, ← pow_succ]
      obtain ⟨K, hK, hle, hloop⟩ := ih (k := k + 1) (by rwa [add_right_comm, add_assoc])
      exact ⟨K, by omega, hle, hloop⟩
    · rw [if_neg hlt]
      exact ⟨k, by omega, not_lt.mp hlt, rfl⟩

theorem scatterRecvLoop_pos {k₀ : Nat} (hv : v < A.n) (hk₀ : v % 2 ^ (k₀ + 1) = 2 ^ k₀) (fuel : Nat) (hk : k ≤ k₀)
    (hfuel : k₀ < k + fuel) (cur : Nat) (sched : Sched) : ∃ sched',
      scatterRecvLoop A.nbytes A.scatterSize A.n (A.rank v) v A.recvBuf fuel (2 ^ k) cur sched =
        (2 ^ k₀, A.nbytes - v * A.scatterSize, sched') ∧
      sched'.entries = sched.entries ++ A.scatterEntries k₀ v := by
  have hle := two_pow_le_of_half hk₀
  induction fuel generalizing k with
  | zero => omega
  | succ fuel ih =>
    have hlt : 2 ^ k < A.n := (Nat.pow_le_pow_right (by decide) hk).trans_lt (hle.trans_lt hv)
    rw [scatterRecvLoop, if_pos hlt]
    rcases hk.lt_or_eq with hk | rfl
    · -- the lower bits are not set
      have hzero : v % 2 ^ (k + 1) = 0 := by
        have hdvd : 2 ^ (k + 1) ∣ 2 ^ k₀ := pow_dvd_pow 2 hk
        rw [← mod_mod_of_dvd v (dvd_trans hdvd (pow_dvd_pow 2 (le_succ k₀))), hk₀]
        exact mod_eq_zero_of_dvd hdvd
      rw [if_neg (not_not_intro (and_two_pow_of_zero hzero)), shiftLeft_eq, pow_one, ← pow_succ]
      exact ih (k := k + 1) hk (by omega)
    · have hne : v &&& 2 ^ k ≠ 0 := by
        rw [and_two_pow_of_half hk₀]
        exact (Nat.two_pow_pos k).ne'
      rw [if_pos hne]
      refine ⟨_, rfl, ?_⟩
      rw [A.rank_sub hv hle, scatterEntries, scatterKind, if_pos hk₀]
      by_cases hrecv : v * A.scatterSize < A.nbytes
      · rw [if_pos hrecv, if_pos (Nat.sub_pos_of_lt hrecv), Sched.addBarrier_create_entries]
        rfl
      · rw [if_neg hrecv, if_neg (by omega)]
        exact (append_nil _).symm

theorem Sends.lower {u : Nat} (h : A.Sends (k + 1) u) : A.Sends k u := by
  have hlt := h.mul_lt
  have hlt' := h.2.1
  rw [pow_succ] at hlt'
  exact ⟨mod_two_pow_of_succ h.1, by omega, by omega⟩

theorem scatterSendLoop_entries (hskip : ∀ dst, dst ≠ A.root → skip dst = false) (fuel : Nat) (hfuel : j < fuel)
    (hzero : v % 2 ^ j = 0) (sched : Sched) : (scatterSendLoop A.scatterSize A.n (A.rank v) v (A.sendBuf (A.rank v)) skip
        fuel (2 ^ j >>> 1) (A.currSize j v) sched).entries =
      sched.entries ++ (range j).reverse.flatMap fun k => A.scatterEntries k v := by
  induction fuel generalizing j sched with
  | zero => omega
  | succ fuel ih =>
    rw [scatterSendLoop]
    cases j with
    | zero =>
      rw [if_neg (by decide)]
      exact (append_nil _).symm
    | succ j =>
      have hmask : 2 ^ (j + 1) >>> 1 = 2 ^ j := by
        rw [Nat.shiftRight_eq_div_pow, Nat.pow_one, Nat.pow_succ, Nat.mul_div_cancel _ (by decide)]
      have hne : v % 2 ^ (j + 1) ≠ 2 ^ j := by
        rw [hzero]
        exact (Nat.two_pow_pos j).ne
      have hpos : 0 < A.sendSize j v ↔ _ := sendSize_pos_iff
      rw [hmask, if_pos (Nat.two_pow_pos j), range_succ, reverse_append, reverse_singleton,
        singleton_append, flatMap_cons, ← append_assoc]
      by_cases hsends : A.Sends j v
      · -- it sends, and keeps what it did not send
        have hsize := hpos.mpr hsends.2.2
        have hcur : A.currSize (j + 1) v - A.sendSize j v = A.currSize j v := by
          rw [currSize_of_sends hsends, mul_comm]
          unfold sendSize at hsize ⊢
          omega
        have hdst : A.rank (v + 2 ^ j) ≠ A.root := by
          rw [ne_eq, ← A.rel_eq_zero, A.rel_rank hsends.2.1]
          have := Nat.two_pow_pos j
          omega
        rw [if_pos hsends.2.1]
        dsimp only
        rw [show A.currSize (j + 1) v - A.scatterSize * 2 ^ j = A.sendSize j v from rfl, if_pos hsize, hcur,
          A.rank_add hsends.2.1, hskip _ hdst, ih (by omega) (mod_two_pow_of_succ hzero), scatterEntries,
          scatterKind, if_neg hne, if_pos hsends]
        rw [if_neg Bool.false_ne_true, Sched.addBarrier_create_entries]
        rfl
      · -- it does not, and did not before
        have hcur : A.currSize (j + 1) v = A.currSize j v := by
          rw [currSize_of_not hsends, currSize_of_not fun h => hsends h.lower]
        have hnil : A.scatterEntries j v = [] := by
          rw [scatterEntries, scatterKind, if_neg hne, if_neg hsends]
          rfl
        have hrest := ih (j := j) (by omega) (mod_two_pow_of_succ hzero) sched
        rw [hnil, append_nil, ← hrest, ← hcur]
        by_cases hlt : v + 2 ^ j < A.n
        · have hnot : ¬ 0 < A.sendSize j v := fun h => hsends ⟨hzero, hlt, hpos.mp h⟩
          rw [if_pos hlt]
          rw [show A.currSize (j + 1) v - A.scatterSize * 2 ^ j = A.sendSize j v from rfl, if_neg hnot]
        · rw [if_neg hlt]

theorem scatterEntries_range (hj : j ≤ A.n) (h : ∀ k, j ≤ k → A.scatterEntries k v = []) :
    ((range A.n).reverse.flatMap fun k => A.scatterEntries k v) =
      (range j).reverse.flatMap fun k => A.scatterEntries k v := by
  obtain ⟨m, hm⟩ : ∃ m, A.n = j + m := ⟨A.n - j, by omega⟩
  have hnil : (((range m).map (j + ·)).reverse.flatMap fun k => A.scatterEntries k v) = [] := by
    apply flatMap_eq_nil_iff.mpr
    intro k hk
    obtain ⟨i, -, rfl⟩ := mem_map.mp (mem_reverse.mp hk)
    exact h _ (Nat.le_add_right ..)
  rw [hm, range_add, reverse_append, flatMap_append, hnil, nil_append]

/-- **What the scatter leaves** in the schedule of a rank. -/
theorem scatterFor_entries (hr : r < A.n) (hskip : ∀ dst, dst ≠ A.root → skip dst = false) (sched : Sched) :
    (scatterFor (A.sendBuf r) A.recvBuf skip A.root A.nbytes A.comm r sched).entries =
      sched.entries ++ (range A.n).reverse.flatMap fun k => A.scatterEntries k (A.rel r) := by
  obtain ⟨v, hv, rfl⟩ := A.exists_rank hr
  have hrel : (if A.rank v ≥ A.root then A.rank v - A.root else A.rank v + A.n - A.root) = v := A.rel_rank hv
  have hss : (A.nbytes + A.n - 1) / A.n = A.scatterSize := rfl
  have hsend := fun {j : Nat} (hj : j ≤ A.n) (hzero : v % 2 ^ j = 0) (sched : Sched) =>
    scatterSendLoop_entries hskip (A.n + 1) (Nat.lt_succ_of_le hj) hzero sched
  unfold scatterFor
  dsimp only
  rw [hrel, hss, A.rel_rank hv]
  rcases Nat.eq_zero_or_pos v with rfl | hpos
  · -- the root
    obtain ⟨K, hK, hle, hloop⟩ := scatterRecvLoop_zero A.recvBuf A.nbytes A.scatterSize A.n
      (A.rank 0) A.n (k := 0) (by rw [Nat.zero_add]; exact Nat.lt_two_pow_self.le)
      (if A.rank 0 = A.root then A.nbytes else 0) sched
    rw [Nat.zero_add] at hK
    have hcur : A.currSize K 0 = A.nbytes := by
      rw [currSize_of_le hle, Nat.zero_mul, Nat.sub_zero]
    rw [← Nat.pow_zero 2, hloop, if_pos A.rank_zero, scatterEntries_range hK, ← hsend hK (Nat.zero_mod _), hcur]
    intro k hk
    exact scatterEntries_zero (hle.trans (Nat.pow_le_pow_right (by decide) hk))
  · obtain ⟨k₀, hk₀⟩ := exists_lowest_bit hpos
    have hlt : k₀ < A.n := Nat.lt_two_pow_self.trans_le ((two_pow_le_of_half hk₀).trans hv.le)
    obtain ⟨sched', hloop, hentries⟩ := scatterRecvLoop_pos hv hk₀ A.n (Nat.zero_le k₀) (by omega)
      (if A.rank v = A.root then A.nbytes else 0) sched
    rw [← Nat.pow_zero 2, hloop]
    rw [← currSize_of_lowest_bit hk₀, hsend hlt.le (mod_two_pow_of_half hk₀), hentries,
      scatterEntries_range hlt, range_succ, reverse_append, reverse_singleton, singleton_append,
      flatMap_cons, append_assoc]
    intro k hk
    exact scatterEntries_of_lowest_bit hk₀ hk

theorem ringAllgatherLoop_entries (hr : r < A.n) (i : Nat) {t : Nat} (ht : t + i + 1 = A.n) (sched : Sched) :
    (ringAllgatherLoop (A.sendBuf r) A.recvBuf A.nbytes A.scatterSize A.n A.root (rotDown A.n r 1) (rotUp A.n r 1) i
        (rotDown A.n r t) (rotDown A.n r (t + 1)) sched).entries =
      sched.entries ++ (range' t i).flatMap fun t => entriesOf true (swapKinds true (A.blockSwap t) r) := by
  induction i generalizing t sched with
  | zero => exact (append_nil _).symm
  | succ i ih =>
    have hlt : rotDown A.n r (t + 1) < A.n := rotDown_lt hr (by omega)
    have hrel : ∀ t < A.n, (rotDown A.n r t + A.n - A.root) % A.n = rotDown A.n (A.rel r) t := by
      intro t ht
      rw [mod_rotDown (rotDown_lt hr ht) A.root_lt, rotDown_comm hr ht A.root_lt]
      rfl
    have hnext : (A.n + rotDown A.n r (t + 1) - 1) % A.n = rotDown A.n r (t + 1 + 1) := by
      rw [add_comm, mod_rotDown hlt (by omega), rotDown_rotDown_one hr (by omega)]
    rw [ringAllgatherLoop, hrel t (by omega), hrel (t + 1) (by omega), hnext, ih (by omega), range'_succ,
      flatMap_cons, ← append_assoc]
    congr 1
    rw [Sched.addBarrier_create_entries, Sched.create_entries, append_assoc, swapKinds, blockSwap, if_pos hr]
    rfl

variable (A) in
/-- The entries of a rank before the last copy. -/
def broadcastEntries (r : Nat) : List SchedEntry :=
  ((range A.n).reverse.flatMap fun k => A.scatterEntries k (A.rel r)) ++
    (range (A.n - 1)).flatMap fun t => entriesOf true (swapKinds true (A.blockSwap t) r)

theorem ringAllgather_entries (hr : r < A.n) (hn : A.n ≠ 1) (hskip : ∀ dst, dst ≠ A.root → skip dst = false)
    (sched : Sched) :
    (ringAllgather (A.sendBuf r) A.recvBuf A.root A.nbytes A.comm r
      (scatterFor (A.sendBuf r) A.recvBuf skip A.root A.nbytes A.comm r sched)).entries =
      sched.entries ++ A.broadcastEntries r := by
  have hleft : (A.n + r - 1) % A.n = rotDown A.n r 1 := by
    rw [add_comm, mod_rotDown hr (by omega)]
  have hright : (r + 1) % A.n = rotUp A.n r 1 := mod_rotUp hr (by omega)
  have hring := ringAllgatherLoop_entries hr (A.n - 1) (t := 0) (by omega)
    (scatterFor (A.sendBuf r) A.recvBuf skip A.root A.nbytes A.comm r sched)
  rw [rotDown_zero, zero_add, ← range_eq_range'] at hring
  unfold ringAllgather
  dsimp only
  rw [hleft, hright]
  refine hring.trans ?_
  rw [scatterFor_entries hr hskip, broadcastEntries, append_assoc]

theorem broadcastRounds_entries (hr : r < A.n) :
    A.broadcastRounds.flatMap (· r) = A.broadcastEntries r ++ entriesOf true (A.rootCopyKinds r) := by
  rw [broadcastRounds, flatMap_append, flatMap_append, flatMap_singleton, broadcastEntries, scatterRounds,
    ringRounds, flatMap_map, flatMap_map]
  congr 1
  congr 1
  apply flatMap_congr
  intro k _
  rw [scatterRound, SchedRound.ofKinds, A.kinds_of_lt _ hr]
  rfl

variable {count dtypeSize : Nat} (hbytes : A.nbytes = dtypeSize * count)

include hbytes

theorem cclCollBuildScatterRingAllgatherBroadcast_entries (hr : r < A.n) (hn : A.n ≠ 1) :
    ∃ s, cclCollBuildScatterRingAllgatherBroadcast (A.sendBuf r) A.recvBuf count dtypeSize A.root A.comm r (.new 0) =
        some s ∧ s.entries = A.broadcastRounds.flatMap (· r) := by
  have hskip : ∀ dst, dst ≠ A.root → (decide (A.sendBuf r = A.recvBuf) && decide (dst = A.root)) = false := by
    intro dst h
    rw [decide_eq_false h, Bool.and_false]
  have hring := ringAllgather_entries hr hn hskip (.new 0)
  rw [cclCollBuildScatterRingAllgatherBroadcast, if_neg hn, broadcastRounds_entries hr, rootCopyKinds, ← hbytes]
  by_cases h : r = A.root ∧ A.sendBuf r ≠ A.recvBuf
  · refine ⟨_, if_pos h, ?_⟩
    rw [if_pos h, Sched.addBarrier_create_entries]
    exact congrArg (· ++ _) hring
  · refine ⟨_, if_neg h, ?_⟩
    rw [if_neg h]
    exact hring.trans (append_nil _).symm

theorem cclCollBuildScatterRingAllgatherBcast_entries (hbuf : A.sendBuf r = A.recvBuf) (hr : r < A.n) (hn : A.n ≠ 1) :
    ∃ s, cclCollBuildScatterRingAllgatherBcast A.recvBuf count dtypeSize A.root A.comm r (.new 0) = some s ∧
      s.entries = A.broadcastRounds.flatMap (· r) := by
  have hring := ringAllgather_entries hr hn (fun _ _ => rfl) (.new 0)
  rw [cclCollBuildScatterRingAllgatherBcast, if_neg hn, broadcastRounds_entries hr, rootCopyKinds,
    if_neg fun h => h.2 hbuf, ← hbytes]
  rw [hbuf] at hring
  exact ⟨_, rfl, hring.trans (append_nil _).symm⟩

end

end BcastCall

end OneCcl
