import OneCcl.Comm.Comm

/-!
# The int arithmetic of the scatter-ring broadcast

`ccl_coll_build_scatter_ring_allgather_bcast` and `ccl_coll_build_scatter_for_bcast` count bytes in `int`s, and the
parallelizer is to keep the parts of a broadcast small enough for that. `bcastInts` goes through the two builders and
writes down every number of bytes they compute, over an arithmetic: the machine's, or that of the integers.

The two agree on a part as long as its bytes and the number of ranks fit an `int` together
(`bcastInts_eq_of_lt`, `lt_of_bcastInts_eq`). The parallelizer cuts at 1 GiB and rounds the number of parts down, so a
part can have almost 2 GiB; and it does not cut at all when there are fewer elements than workers.
-/

namespace OneCcl

open List

open Option (bind_eq_some_iff bind_some)

/-- An arithmetic of bytes: what an `int` operation gives, the value of a `size_t` expression, and a `size_t` turned into
an `int`. -/
structure IntArith where
  int : Int → Option Int
  sizeT : Int → Int
  ofSizeT : Int → Int

open IntArith

/-- The machine: an `int` operation must not overflow, a `size_t` is a residue, and its conversion keeps the low bits. -/
def IntArith.machine : IntArith where
  int x := if -2 ^ 31 ≤ x ∧ x < 2 ^ 31 then some x else none
  sizeT x := x % 2 ^ 64
  ofSizeT x := x.bmod (2 ^ 32)

def IntArith.exact : IntArith := ⟨some, id, id⟩

/-! ## The builders -/

section

variable (A : IntArith)

/-- `if (x < 0) x = 0`. -/
def clamp (x : Int) : Int := if x < 0 then 0 else x

section

variable (nbytes scatterSize : Int) (commSize relativeRank : Nat)

/-- The first loop of `ccl_coll_build_scatter_for_bcast`: `mask`, `curr_size` and the numbers on the way. -/
def scatterRecvInts : Nat → Nat → Int → Option (Nat × Int × List Int)
  | 0, mask, currSize => some (mask, currSize, [])
  | fuel + 1, mask, currSize =>
    if mask < commSize then
      if relativeRank &&& mask ≠ 0 then
        (A.int (relativeRank * scatterSize)).bind fun offset =>
        let recvSize := A.ofSizeT (A.sizeT (nbytes - offset))
        some (mask, clamp recvSize, [offset, recvSize])
      else scatterRecvInts fuel (mask <<< 1) currSize
    else some (mask, currSize, [])

def scatterSendInts : Nat → Nat → Int → Option (List Int)
  | 0, _, _ => some []
  | fuel + 1, mask, currSize =>
    if mask > 0 then
      if relativeRank + mask < commSize then
        (A.int (scatterSize * mask)).bind fun part =>
        (A.int (currSize - part)).bind fun sendSize =>
        if sendSize > 0 then
          (A.int (scatterSize * (relativeRank + mask))).bind fun offset =>
          (A.int (currSize - sendSize)).bind fun currSize =>
          (scatterSendInts fuel (mask >>> 1) currSize).bind fun rest =>
          some (part :: sendSize :: offset :: currSize :: rest)
        else
          (scatterSendInts fuel (mask >>> 1) currSize).bind fun rest =>
          some (part :: sendSize :: rest)
      else scatterSendInts fuel (mask >>> 1) currSize
    else some []

end

/-- `ccl_coll_build_scatter_for_bcast`; `nbytes` is a `size_t` here. -/
def scatterForBcastInts (root : Nat) (nbytes : Int) (comm : CclComm) (rank : Nat) : Option (List Int) :=
  let commSize := comm.size
  let relativeRank := if rank ≥ root then rank - root else rank + commSize - root
  let scatterSize := A.ofSizeT (A.sizeT (nbytes + commSize - 1) / commSize)
  let currSize := if rank = root then A.ofSizeT nbytes else 0
  (scatterRecvInts A nbytes scatterSize commSize relativeRank commSize 1 currSize).bind fun (mask, currSize, recvs) =>
  (scatterSendInts A scatterSize commSize relativeRank (commSize + 1) (mask >>> 1) currSize).bind fun sends =>
  some (scatterSize :: recvs ++ sends)

/-- The ring of `ccl_coll_build_scatter_ring_allgather_bcast`, with the number of steps left. -/
def ringInts (nbytes scatterSize : Int) (commSize root : Nat) : Nat → Nat → Nat → Option (List Int)
  | 0, _, _ => some []
  | i + 1, j, jnext =>
    let relJ := (j + commSize - root) % commSize
    let relJnext := (jnext + commSize - root) % commSize
    (A.int (relJnext * scatterSize)).bind fun leftDisp =>
    (A.int (nbytes - leftDisp)).bind fun leftRest =>
    (A.int (relJ * scatterSize)).bind fun rightDisp =>
    (A.int (nbytes - rightDisp)).bind fun rightRest =>
    (ringInts nbytes scatterSize commSize root i jnext ((commSize + jnext - 1) % commSize)).bind fun rest =>
    some (leftDisp :: leftRest :: clamp (min scatterSize leftRest) :: rightDisp :: rightRest ::
      clamp (min scatterSize rightRest) :: rest)

/-- `ccl_coll_build_scatter_ring_allgather_bcast`: all numbers of bytes it computes. -/
def bcastInts (count dtypeSize root : Nat) (comm : CclComm) (rank : Nat) : Option (List Int) :=
  if comm.size = 1 then some []
  else
    let commSize := comm.size
    let nbytes := A.ofSizeT (A.sizeT (dtypeSize * count : Nat))
    (scatterForBcastInts A root (A.sizeT nbytes) comm rank).bind fun scatter =>
    (A.int (nbytes + commSize)).bind fun total =>
    (A.int (total - 1)).bind fun sum =>
    let scatterSize := sum.tdiv commSize
    (A.int (rank * scatterSize)).bind fun disp =>
    (A.int (nbytes - disp)).bind fun rest =>
    let left := (commSize + rank - 1) % commSize
    (ringInts A nbytes scatterSize commSize root (commSize - 1) rank left).bind fun ring =>
    some (nbytes :: total :: sum :: scatterSize :: disp :: rest :: clamp (min scatterSize rest) :: scatter ++ ring)

end

/-! ## The parts of a broadcast -/

section

variable (maxShortSize maxDataPartitionCount count dtypeSize : Nat)

/-- The number of parts `ccl_parallelizer::process_base` makes of a broadcast on the host with `bcast_part_count` unset.
The bytes are a `size_t`. -/
def bcastPartCount : Nat :=
  let bytes := count * dtypeSize % 2 ^ 64
  if bytes ≤ maxShortSize ∨ count < maxDataPartitionCount then 1
  else
    let partCount := bytes / (1024 * 1024 * 1024)
    if partCount < maxDataPartitionCount then maxDataPartitionCount else partCount

/-- `counts` of the same function for a given number of parts. -/
def bcastCounts (partCount : Nat) : List Nat :=
  let baseCount := count / partCount
  let counts := replicate partCount baseCount
  counts.set (counts.length - 1) (baseCount + count % counts.length)

end

/-! ## The machine agrees -/

section

variable {x : Int}

theorem machine_int (hlo : -2 ^ 31 ≤ x) (hhi : x < 2 ^ 31) : machine.int x = some x := if_pos ⟨hlo, hhi⟩

theorem lt_of_machine_int {y : Int} (h : machine.int x = some y) : x < 2 ^ 31 := by
  by_contra hx
  exact absurd (h.symm.trans (if_neg fun hfits => hx hfits.2)) (Option.some_ne_none y)

theorem machine_ofSizeT_self (hlo : -2 ^ 31 ≤ x) (hhi : x < 2 ^ 31) : machine.ofSizeT x = x :=
  Int.bmod_eq_of_le (by omega) (by omega)

theorem machine_ofSizeT (hlo : -2 ^ 31 ≤ x) (hhi : x < 2 ^ 31) :
    machine.ofSizeT (machine.sizeT x) = x := by
  show (x % 2 ^ 64).bmod (2 ^ 32) = x
  rw [← Int.emod_bmod, Int.emod_emod_of_dvd x (by decide), Int.emod_bmod]
  exact machine_ofSizeT_self hlo hhi

theorem machine_sizeT (hlo : 0 ≤ x) (hhi : x < 2 ^ 64) : machine.sizeT x = x := Int.emod_eq_of_lt hlo hhi

theorem clamp_bounds {b : Int} (hb : 0 < b) (hhi : x < b) : 0 ≤ clamp x ∧ clamp x < b := by
  unfold clamp
  split <;> omega

end

section

variable {n : Nat} {nbytes s : Int} (hs : 0 ≤ s) (hns : n * s < 2 ^ 31)

variable {v : Nat} {curr : Int}

include hs hns in
theorem mul_scatter_bounds (hv : v ≤ n) : 0 ≤ v * s ∧ v * s < 2 ^ 31 := by
  have hle : (v : Int) * s ≤ n * s := Int.mul_le_mul_of_nonneg_right (Int.ofNat_le.mpr hv) hs
  exact ⟨Int.mul_nonneg (Int.natCast_nonneg v) hs, by omega⟩

include hs hns in
theorem scatterRecvInts_eq (hlo : 0 ≤ nbytes) (hhi : nbytes < 2 ^ 31) (hv : v ≤ n) (fuel mask : Nat) (curr : Int) :
    scatterRecvInts .machine nbytes s n v fuel mask curr = scatterRecvInts .exact nbytes s n v fuel mask curr := by
  have hoff := mul_scatter_bounds hs hns hv
  induction fuel generalizing mask with
  | zero => rfl
  | succ fuel ih =>
    unfold scatterRecvInts
    rw [machine_int (by omega) hoff.2, ih]
    simp only [bind_some, machine_ofSizeT (show -2 ^ 31 ≤ nbytes - v * s by omega) (by omega)]
    rfl

theorem scatterRecvInts_bounds (hoff : ∀ v : Nat, v ≤ n → 0 ≤ v * s) (hhi : nbytes < 2 ^ 31)
    (hv : v ≤ n) (fuel : Nat) {mask : Nat} (hcurr : 0 ≤ curr ∧ curr < 2 ^ 31) {res : Nat × Int × List Int}
    (h : scatterRecvInts .exact nbytes s n v fuel mask curr = some res) : 0 ≤ res.2.1 ∧ res.2.1 < 2 ^ 31 := by
  induction fuel generalizing mask with
  | zero =>
    cases h
    exact hcurr
  | succ fuel ih =>
    unfold scatterRecvInts at h
    split at h
    · split at h
      · cases h
        refine clamp_bounds (by decide) ?_
        have := hoff v hv
        show nbytes - v * s < 2 ^ 31
        omega
      · exact ih h
    · cases h
      exact hcurr

include hs hns in
theorem scatterSendInts_eq (fuel mask : Nat) (hcurr : 0 ≤ curr ∧ curr < 2 ^ 31) :
    scatterSendInts .machine s n v fuel mask curr = scatterSendInts .exact s n v fuel mask curr := by
  induction fuel generalizing mask curr with
  | zero => rfl
  | succ fuel ih =>
    unfold scatterSendInts
    split
    · split
      next hlt =>
        have hpart := mul_scatter_bounds hs hns (v := mask) (by omega)
        have hoff := mul_scatter_bounds hs hns (v := v + mask) (by omega)
        rw [Int.mul_comm, ← Int.natCast_add, Int.mul_comm s, machine_int (by omega) hpart.2, bind_some,
          machine_int (by omega) (by omega), bind_some, machine_int (by omega) hoff.2]
        simp only [bind_some, exact]
        split
        · rw [machine_int (by omega) (by omega), bind_some, ih _ (by omega)]
          rfl
        · rw [ih _ hcurr]
          rfl
      · exact ih _ hcurr
    · rfl

include hs hns in
theorem ringInts_eq (hlo : 0 ≤ nbytes) (hhi : nbytes < 2 ^ 31) (hn : 0 < n) (root i j jnext : Nat) :
    ringInts .machine nbytes s n root i j jnext = ringInts .exact nbytes s n root i j jnext := by
  induction i generalizing j jnext with
  | zero => rfl
  | succ i ih =>
    have hleft := mul_scatter_bounds hs hns ((Nat.mod_lt (jnext + n - root) hn).le)
    have hright := mul_scatter_bounds hs hns ((Nat.mod_lt (j + n - root) hn).le)
    unfold ringInts
    dsimp only
    rw [machine_int (by omega) hleft.2, bind_some, machine_int (by omega) (by omega), bind_some,
      machine_int (by omega) hright.2, bind_some, machine_int (by omega) (by omega), bind_some, ih]
    rfl

end

/-! ## A part -/

section

variable {count dtypeSize root : Nat} {comm : CclComm} {rank : Nat}

theorem scatter_mul_le (nbytes n : Nat) (hn : 0 < n) :
    0 ≤ ((nbytes + n - 1 : Nat) : Int) / n ∧ (n : Int) * (((nbytes + n - 1 : Nat) : Int) / n) ≤ nbytes + n - 1 := by
  have h := Nat.mul_div_le (nbytes + n - 1) n
  rw [← Int.natCast_ediv, ← Int.natCast_mul]
  exact ⟨Int.natCast_nonneg _, by omega⟩

theorem scatterForBcastInts_eq {nbytes : Nat} (hroot : root < comm.size) (hrank : rank < comm.size)
    (hlt : nbytes + comm.size < 2 ^ 31) :
    scatterForBcastInts .machine root nbytes comm rank = scatterForBcastInts .exact root nbytes comm rank := by
  have hn := comm.size_pos
  obtain ⟨hs, hle⟩ := scatter_mul_le nbytes comm.size hn
  have hsum : (nbytes : Int) + comm.size - 1 = (nbytes + comm.size - 1 : Nat) := by omega
  have hns : (comm.size : Int) * (((nbytes + comm.size - 1 : Nat) : Int) / comm.size) < 2 ^ 31 := by omega
  have hone := mul_scatter_bounds hs hns (v := 1) hn
  rw [Int.natCast_one, Int.one_mul] at hone
  have hrel : (if rank ≥ root then rank - root else rank + comm.size - root) ≤ comm.size := by
    split <;> omega
  unfold scatterForBcastInts
  dsimp only
  rw [hsum, machine_sizeT (by omega) (by omega), machine_ofSizeT_self (by omega) hone.2,
    machine_ofSizeT_self (by omega) (by omega), scatterRecvInts_eq hs hns (by omega) (by omega) hrel]
  simp only [exact, id]
  generalize hrecv : scatterRecvInts ⟨some, id, id⟩ _ _ _ _ _ _ _ = recv
  cases recv with
  | none => simp only [Option.bind_none]
  | some res =>
    have hcurr := scatterRecvInts_bounds (fun v hv => (mul_scatter_bounds hs hns hv).1) (by omega) hrel _
      (by split <;> omega) hrecv
    simp only [bind_some]
    rw [scatterSendInts_eq hs hns _ _ hcurr]
    rfl

theorem bcastInts_eq_of_lt (hroot : root < comm.size) (hrank : rank < comm.size)
    (hlt : dtypeSize * count + comm.size < 2 ^ 31) :
    bcastInts .machine count dtypeSize root comm rank = bcastInts .exact count dtypeSize root comm rank := by
  have hn := comm.size_pos
  unfold bcastInts
  split
  · rfl
  · generalize dtypeSize * count = nbytes at hlt ⊢
    obtain ⟨hs, hle⟩ := scatter_mul_le nbytes comm.size hn
    have hns : (comm.size : Int) * (((nbytes + comm.size - 1 : Nat) : Int) / comm.size) < 2 ^ 31 := by omega
    have hdisp := mul_scatter_bounds hs hns hrank.le
    have hdiv : ((nbytes : Int) + comm.size - 1).tdiv comm.size = ((nbytes + comm.size - 1 : Nat) : Int) / comm.size := by
      rw [show (nbytes : Int) + comm.size - 1 = (nbytes + comm.size - 1 : Nat) by omega]
      exact Int.tdiv_eq_ediv_of_nonneg (Int.natCast_nonneg _)
    dsimp only
    rw [machine_ofSizeT (by omega) (by omega), machine_sizeT (by omega) (by omega), scatterForBcastInts_eq hroot hrank hlt,
      machine_int (by omega) (by omega)]
    simp only [exact, id, bind_some]
    rw [machine_int (by omega) (by omega)]
    simp only [bind_some, hdiv]
    rw [machine_int (by omega) hdisp.2]
    simp only [bind_some]
    rw [machine_int (by omega) (by omega), ringInts_eq hs hns (by omega) (by omega) hn]
    rfl

theorem scatterRecvInts_exact (nbytes s : Int) (n v fuel mask : Nat) (curr : Int) :
    ∃ res, scatterRecvInts .exact nbytes s n v fuel mask curr = some res := by
  induction fuel generalizing mask with
  | zero => exact ⟨_, rfl⟩
  | succ fuel ih =>
    unfold scatterRecvInts
    split
    · split
      · exact ⟨_, rfl⟩
      · exact ih _
    · exact ⟨_, rfl⟩

theorem scatterSendInts_exact (s : Int) (n v fuel mask : Nat) (curr : Int) :
    ∃ res, scatterSendInts .exact s n v fuel mask curr = some res := by
  induction fuel generalizing mask curr with
  | zero => exact ⟨_, rfl⟩
  | succ fuel ih =>
    unfold scatterSendInts
    simp only [exact, bind_some] at ih ⊢
    split
    · split
      · split
        · obtain ⟨res, hres⟩ := ih (mask >>> 1) (curr - (curr - s * mask))
          rw [hres]
          exact ⟨_, rfl⟩
        · obtain ⟨res, hres⟩ := ih (mask >>> 1) curr
          rw [hres]
          exact ⟨_, rfl⟩
      · exact ih _ _
    · exact ⟨_, rfl⟩

theorem ringInts_exact (nbytes s : Int) (n root i j jnext : Nat) :
    ∃ res, ringInts .exact nbytes s n root i j jnext = some res := by
  induction i generalizing j jnext with
  | zero => exact ⟨_, rfl⟩
  | succ i ih =>
    obtain ⟨res, hres⟩ := ih jnext ((n + jnext - 1) % n)
    unfold ringInts
    rw [hres]
    exact ⟨_, rfl⟩

variable (count dtypeSize root rank) in
theorem bcastInts_exact (hn : comm.size ≠ 1) :
    ∃ l : List Int, bcastInts .exact count dtypeSize root comm rank = some (((dtypeSize * count : Nat) : Int) :: l) := by
  unfold bcastInts scatterForBcastInts
  rw [if_neg hn]
  obtain ⟨recv, hrecv⟩ := scatterRecvInts_exact (dtypeSize * count : Nat)
    (((dtypeSize * count : Nat) + comm.size - 1) / comm.size) comm.size
    (if rank ≥ root then rank - root else rank + comm.size - root) comm.size 1
    (if rank = root then (dtypeSize * count : Nat) else 0)
  obtain ⟨sends, hsends⟩ := scatterSendInts_exact (((dtypeSize * count : Nat) + comm.size - 1) / comm.size) comm.size
    (if rank ≥ root then rank - root else rank + comm.size - root) (comm.size + 1) (recv.1 >>> 1) recv.2.1
  obtain ⟨ring, hring⟩ := ringInts_exact (dtypeSize * count : Nat)
    (((dtypeSize * count : Nat) + comm.size - 1 : Int).tdiv comm.size) comm.size root (comm.size - 1) rank
    ((comm.size + rank - 1) % comm.size)
  simp only [exact, id] at hrecv hsends hring ⊢
  rw [hrecv]
  simp only [bind_some]
  rw [hsends]
  rw [hring]
  exact ⟨_, rfl⟩

theorem bcastInts_machine (hn : comm.size ≠ 1) {x : Int} {l : List Int}
    (h : bcastInts .machine count dtypeSize root comm rank = some (x :: l)) : x < 2 ^ 31 ∧ x + comm.size < 2 ^ 31 := by
  unfold bcastInts at h
  rw [if_neg hn] at h
  obtain ⟨scatter, -, h⟩ := bind_eq_some_iff.mp h
  obtain ⟨total, htotal, h⟩ := bind_eq_some_iff.mp h
  obtain ⟨sum, -, h⟩ := bind_eq_some_iff.mp h
  obtain ⟨disp, -, h⟩ := bind_eq_some_iff.mp h
  obtain ⟨rest, -, h⟩ := bind_eq_some_iff.mp h
  obtain ⟨ring, -, h⟩ := bind_eq_some_iff.mp h
  obtain ⟨rfl, -⟩ := cons.inj (Option.some.inj h)
  refine ⟨?_, ?_⟩
  · have := Int.bmod_lt (x := machine.sizeT (dtypeSize * count : Nat)) (m := 2 ^ 32) (by decide)
    simp only [machine] at this ⊢
    omega
  · exact lt_of_machine_int htotal

theorem lt_of_bcastInts_eq (hn : comm.size ≠ 1)
    (h : bcastInts .machine count dtypeSize root comm rank = bcastInts .exact count dtypeSize root comm rank) :
    dtypeSize * count + comm.size < 2 ^ 31 := by
  obtain ⟨l, hl⟩ := bcastInts_exact count dtypeSize root rank hn
  have := (bcastInts_machine hn (h.trans hl)).2
  omega

end

/-! ## All parts of a broadcast -/

/-- The count of the largest part: all of a call that is short or has fewer elements than workers; otherwise a share, and
what is left over with the last one. -/
def largestPart (maxShortSize workers count dtypeSize : Nat) : Nat :=
  let bytes := count * dtypeSize % 2 ^ 64
  if bytes ≤ maxShortSize ∨ count < workers then count
  else count / max workers (bytes / 2 ^ 30) + count % max workers (bytes / 2 ^ 30)

theorem largestPart_eq (maxShortSize workers count dtypeSize : Nat) : largestPart maxShortSize workers count dtypeSize =
      count / bcastPartCount maxShortSize workers count dtypeSize +
        count % bcastPartCount maxShortSize workers count dtypeSize := by
  unfold largestPart bcastPartCount
  dsimp only
  split
  · rw [Nat.div_one, Nat.mod_one, Nat.add_zero]
  · split
    next hlt => exact congrArg (fun k => count / k + count % k) (Nat.max_eq_left hlt.le)
    next hle => exact congrArg (fun k => count / k + count % k) (Nat.max_eq_right (le_of_not_gt hle))

variable {count p : Nat}

theorem bcastPartCount_pos {maxShortSize workers dtypeSize : Nat} (hw : 0 < workers) :
    0 < bcastPartCount maxShortSize workers count dtypeSize := by
  unfold bcastPartCount
  dsimp only
  split
  · exact Nat.one_pos
  · split <;> omega

theorem le_of_mem_bcastCounts {c : Nat} (h : c ∈ bcastCounts count p) : c ≤ count / p + count % p := by
  unfold bcastCounts at h
  dsimp only at h
  rw [length_replicate] at h
  rcases mem_or_eq_of_mem_set h with h | rfl
  · rw [(mem_replicate.mp h).2]
    exact Nat.le_add_right ..
  · exact le_rfl

theorem last_mem_bcastCounts (count : Nat) (hp : 0 < p) : count / p + count % p ∈ bcastCounts count p := by
  unfold bcastCounts
  dsimp only
  rw [length_replicate]
  exact mem_set (by rw [length_replicate]; omega) _

/-- In every part the parallelizer hands to the builder, all numbers of bytes are exact just when there is one rank or
the largest part and the number of ranks fit an `int` together. -/
theorem bcast_ints_exact_iff (maxShortSize workers count dtypeSize root : Nat) (comm : CclComm) (hw : 0 < workers)
    (hroot : root < comm.size) :
    (∀ c ∈ bcastCounts count (bcastPartCount maxShortSize workers count dtypeSize), ∀ rank < comm.size,
      bcastInts .machine c dtypeSize root comm rank = bcastInts .exact c dtypeSize root comm rank) ↔
      comm.size = 1 ∨ dtypeSize * largestPart maxShortSize workers count dtypeSize + comm.size < 2 ^ 31 := by
  rw [largestPart_eq]
  constructor
  · intro h
    by_cases hn : comm.size = 1
    · exact .inl hn
    · exact .inr (lt_of_bcastInts_eq hn (h _ (last_mem_bcastCounts count (bcastPartCount_pos hw)) root hroot))
  · rintro (hn | hlt) c hc rank hrank
    · unfold bcastInts
      rw [if_pos hn, if_pos hn]
    · refine bcastInts_eq_of_lt hroot hrank ((Nat.add_le_add_right ?_ _).trans_lt hlt)
      exact Nat.mul_le_mul_left _ (le_of_mem_bcastCounts hc)

/-- A gigabyte of floats on four ranks with two workers is cut in two, and all is exact. -/
theorem bcast_gigabyte_exact : bcastPartCount 0 2 (2 ^ 28) 4 = 2 ∧
    ∀ c ∈ bcastCounts (2 ^ 28) (bcastPartCount 0 2 (2 ^ 28) 4), ∀ rank < 4,
      bcastInts .machine c 4 0 ⟨4, by decide, by decide⟩ rank = bcastInts .exact c 4 0 ⟨4, by decide, by decide⟩ rank :=
  ⟨by decide +kernel, (bcast_ints_exact_iff 0 2 (2 ^ 28) 4 0 ⟨4, by decide, by decide⟩ (by decide) (by decide)).mpr
    (.inr (by decide +kernel))⟩

/-- One worker and a byte less than two gigabytes: one part, and on two ranks the sum for `scatter_size` overflows. -/
theorem bcast_two_gigabytes_overflow : bcastCounts (2 ^ 31 - 1) (bcastPartCount 0 1 (2 ^ 31 - 1) 1) = [2 ^ 31 - 1] ∧
      bcastInts .machine (2 ^ 31 - 1) 1 0 ⟨2, by decide, by decide⟩ 0 = none ∧
      bcastInts .exact (2 ^ 31 - 1) 1 0 ⟨2, by decide, by decide⟩ 0 ≠ none := by
  decide +kernel

end OneCcl
