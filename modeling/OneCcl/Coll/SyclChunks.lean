import OneCcl.Coll.GroupCalls

/-!
# The chunk loops of the SYCL collectives

The SYCL collectives for several nodes cut a large call into chunks that fit a staging buffer, and run one chunk after the
other. The number of chunks is an `int`. As long as it is positive the chunks tile the call (`tiles_chunks`), and a call is
right when each chunk is (`runChunks_right`). A number of chunks above `INT_MAX` becomes negative: there is no chunk then.

A rank may leave the loop with `done = false`, and then the caller falls back to the scheduler. All ranks have to agree on
that; `Outcome` tells apart what the communicator as a whole does.
-/

namespace OneCcl

open List

variable {lo mid hi count maxCount a b : Nat} {cs cs' : List (Nat × Nat)} {c : Nat × Nat}

/-- A row of a grid ends before a later one begins. -/
theorem row_le {i j : Nat} (h : i < j) (n : Nat) : i * n + n ≤ j * n := by
  rw [← Nat.succ_mul]
  exact Nat.mul_le_mul_right n h

theorem rows_apart {i j : Nat} (h : i ≠ j) (n : Nat) : i * n + n ≤ j * n ∨ j * n + n ≤ i * n :=
  (h.lt_or_gt).imp (row_le · n) (row_le · n)

/-- The value of a `size_t` as an `int`. -/
def asInt (x : Nat) : Int := Int.bmod x (2 ^ 32)

theorem asInt_of_lt {x : Nat} (h : x < 2 ^ 31) : asInt x = x :=
  Int.bmod_eq_of_le (by omega) (by omega)

theorem asInt_le (x : Nat) : asInt x ≤ x := by
  rcases lt_or_ge x (2 ^ 31) with h | h
  · rw [asInt_of_lt h]
  · have := Int.bmod_lt (x := (x : Int)) (m := 2 ^ 32) (by decide)
    unfold asInt
    omega

-- the unifier would compute with the power of two
attribute [irreducible] asInt

/-- The chunks of `for (int i = 0; i < nchunks; i++)`: the offset and the length of each. -/
def chunks (count maxCount : Nat) : List (Nat × Nat) :=
  let nchunks := asInt ((count + maxCount - 1) / maxCount)
  (range nchunks.toNat).map fun (i : Nat) =>
    (i * maxCount, if (i : Int) < nchunks - 1 then maxCount else count - i * maxCount)

/-- Chunks that follow one another from `lo` to `hi`. -/
def Tiles : Nat → List (Nat × Nat) → Nat → Prop
  | lo, [], hi => lo = hi
  | lo, c :: cs, hi => c.1 = lo ∧ Tiles (lo + c.2) cs hi

theorem Tiles.append (h : Tiles lo cs mid) (h' : Tiles mid cs' hi) : Tiles lo (cs ++ cs') hi := by
  induction cs generalizing lo with
  | nil =>
    obtain rfl : lo = mid := h
    exact h'
  | cons c cs ih => exact ⟨h.1, ih h.2⟩

theorem Tiles.le (h : Tiles lo cs hi) : lo ≤ hi := by
  induction cs generalizing lo with
  | nil => exact h.le
  | cons c cs ih => exact (Nat.le_add_right ..).trans (ih h.2)

theorem Tiles.mem (h : Tiles lo cs hi) (hc : c ∈ cs) : lo ≤ c.1 ∧ c.1 + c.2 ≤ hi := by
  induction cs generalizing lo with
  | nil => cases hc
  | cons c' cs ih =>
    obtain ⟨rfl, ht⟩ := h
    rcases mem_cons.mp hc with rfl | hc
    · exact ⟨le_rfl, ht.le⟩
    · exact ⟨(Nat.le_add_right ..).trans (ih ht hc).1, (ih ht hc).2⟩

theorem Tiles.split (h : Tiles lo (cs ++ c :: cs') hi) : Tiles lo cs c.1 ∧ Tiles (c.1 + c.2) cs' hi := by
  induction cs generalizing lo with
  | nil =>
    obtain ⟨rfl, h⟩ := h
    exact ⟨rfl, h⟩
  | cons c' cs ih => exact ⟨⟨h.1, (ih h.2).1⟩, (ih h.2).2⟩

theorem Tiles.exists_mem (h : Tiles lo cs hi) {i : Nat} (hlo : lo ≤ i) (hhi : i < hi) :
    ∃ c ∈ cs, ∃ x < c.2, i = c.1 + x := by
  induction cs generalizing lo with
  | nil =>
    obtain rfl : lo = hi := h
    omega
  | cons c cs ih =>
    obtain ⟨rfl, ht⟩ := h
    rcases lt_or_ge i (c.1 + c.2) with hi | hi
    · exact ⟨c, mem_cons_self, i - c.1, by omega, by omega⟩
    · obtain ⟨c', hc', hx⟩ := ih ht hi
      exact ⟨c', mem_cons_of_mem _ hc', hx⟩

theorem chunks_of_asInt {nchunks : Int} (h : asInt ((count + maxCount - 1) / maxCount) = nchunks) :
    chunks count maxCount = (range nchunks.toNat).map fun (i : Nat) =>
      (i * maxCount, if (i : Int) < nchunks - 1 then maxCount else count - i * maxCount) := by
  subst h
  rfl

/-- **The chunks, when there are any**: full ones, and the rest. -/
theorem chunks_eq (hmax : 0 < maxCount) (hpos : 0 < asInt ((count + maxCount - 1) / maxCount)) :
    ∃ m, m * maxCount < count ∧ chunks count maxCount =
      (range m).map (fun i => (i * maxCount, maxCount)) ++ [(m * maxCount, count - m * maxCount)] := by
  obtain ⟨m, hm⟩ : ∃ m : Nat, asInt ((count + maxCount - 1) / maxCount) = m + 1 :=
    ⟨(asInt ((count + maxCount - 1) / maxCount) - 1).toNat, by omega⟩
  have hle : m + 1 ≤ (count + maxCount - 1) / maxCount := by
    have := asInt_le ((count + maxCount - 1) / maxCount)
    omega
  refine ⟨m, ?_, ?_⟩
  · have := (Nat.le_div_iff_mul_le hmax).mp hle
    rw [Nat.add_mul] at this
    omega
  · rw [chunks_of_asInt hm, show ((m : Int) + 1).toNat = m + 1 by omega, range_succ, map_append, map_singleton,
      if_neg (by omega)]
    refine congrArg (· ++ _) (map_congr_left fun i hi => ?_)
    have := mem_range.mp hi
    rw [if_pos (by omega)]

theorem tiles_full (maxCount m : Nat) : Tiles 0 ((range m).map fun i => (i * maxCount, maxCount)) (m * maxCount) := by
  induction m with
  | zero => exact (Nat.zero_mul _).symm
  | succ m ih =>
    rw [range_succ, map_append]
    exact ih.append ⟨rfl, (Nat.succ_mul ..).symm⟩

theorem chunks_tile (hmax : 0 < maxCount) (hpos : 0 < asInt ((count + maxCount - 1) / maxCount)) :
    Tiles 0 (chunks count maxCount) count ∧ ∀ c ∈ chunks count maxCount, 0 < c.2 := by
  obtain ⟨m, hm, heq⟩ := chunks_eq hmax hpos
  have hend : m * maxCount + (count - m * maxCount) = count := by omega
  rw [heq]
  refine ⟨(tiles_full maxCount m).append ⟨rfl, hend⟩, fun c hc => ?_⟩
  rcases mem_append.mp hc with hc | hc
  · obtain ⟨i, -, rfl⟩ := mem_map.mp hc
    exact hmax
  · rw [mem_singleton.mp hc]
    exact Nat.sub_pos_of_lt hm

/-- A number of chunks that an `int` holds. -/
structure Counted (count maxCount : Nat) : Prop where
  count_pos : 0 < count
  max_pos : 0 < maxCount
  lt : (count + maxCount - 1) / maxCount < 2 ^ 31

theorem Counted.nchunks_pos (h : Counted count maxCount) : 0 < asInt ((count + maxCount - 1) / maxCount) := by
  rw [asInt_of_lt h.lt]
  have hcount := h.count_pos
  exact_mod_cast Nat.div_pos (by omega) h.max_pos

theorem Counted.chunks_eq (h : Counted count maxCount) :
    ∃ m, m * maxCount < count ∧ count ≤ (m + 1) * maxCount ∧ chunks count maxCount =
      (range m).map (fun i => (i * maxCount, maxCount)) ++ [(m * maxCount, count - m * maxCount)] := by
  obtain ⟨m, hm, heq⟩ := OneCcl.chunks_eq h.max_pos h.nchunks_pos
  refine ⟨m, hm, ?_, heq⟩
  have hlen := congrArg length heq
  rw [chunks_of_asInt (asInt_of_lt h.lt)] at hlen
  simp only [length_map, length_range, Int.toNat_natCast, length_append, length_singleton] at hlen
  have hlt := Nat.lt_mul_div_succ (count + maxCount - 1) h.max_pos
  rw [hlen, Nat.mul_add, Nat.mul_one, Nat.mul_comm] at hlt
  omega

theorem Counted.tiles (h : Counted count maxCount) : Tiles 0 (chunks count maxCount) count :=
  (chunks_tile h.max_pos h.nchunks_pos).1

theorem Counted.le (h : Counted count maxCount) (hc : c ∈ chunks count maxCount) : c.2 ≤ maxCount := by
  obtain ⟨m, hm, hle, heq⟩ := h.chunks_eq
  rw [heq, mem_append, mem_singleton] at hc
  rcases hc with hc | rfl
  · obtain ⟨i, -, rfl⟩ := mem_map.mp hc
    exact le_rfl
  · rw [Nat.add_mul, Nat.one_mul] at hle
    show count - _ ≤ _
    omega

theorem chunks_of_nonpos (h : asInt ((count + maxCount - 1) / maxCount) ≤ 0) : chunks count maxCount = [] := by
  rw [chunks_of_asInt rfl, Int.toNat_of_nonpos h]
  rfl

/-! ## Outcomes -/

/-- What a call does on all ranks together: every rank reports `done`; every rank reports that it is not done, and the
scheduler will compute the result; the ranks differ in what they report; some rank throws or crashes. -/
inductive Outcome (σ : Type) where
  | done (w : σ)
  | fallback (w : σ)
  | torn
  | stopped

/-- Every rank looks at its own flag and returns `done = false` where it is not set. -/
def gate {σ τ : Type} (n : Nat) (flag : Nat → Bool) (w : σ) (go : Except (Outcome σ) τ) : Except (Outcome σ) τ :=
  if ∀ r < n, flag r = true then go
  else if ∀ r < n, flag r = false then .error (.fallback w)
  else .error .torn

/-- The loop over the chunks. A chunk goes on to the next one, or returns. -/
def runChunks {σ : Type} (chunk : Nat × Nat → σ → Except (Outcome σ) σ) : List (Nat × Nat) → σ → Outcome σ
  | [], w => .done w
  | c :: cs, w =>
    match chunk c w with
    | .ok w' => runChunks chunk cs w'
    | .error out => out

variable {σ : Type} {chunk : Nat × Nat → σ → Except (Outcome σ) σ} {w : σ}

theorem runChunks_cons_ok {w' : σ}
    (h : chunk c w = .ok w') (cs : List (Nat × Nat)) : runChunks chunk (c :: cs) w = runChunks chunk cs w' := by
  rw [runChunks, h]

theorem runChunks_cons_error {out : Outcome σ}
    (h : chunk c w = .error out) (cs : List (Nat × Nat)) : runChunks chunk (c :: cs) w = out := by
  rw [runChunks, h]

/-! ## Right chunk by chunk -/

def BufSrc.IsUser (s : BufSrc) : Prop := ∃ i, s = .user i

theorem BufSrc.IsUser.ne_alloc {s : BufSrc} (h : s.IsUser) (i j : Nat) : s ≠ .alloc i j := by
  obtain ⟨k, rfl⟩ := h
  nofun

section

variable {α : Type} {n len : Nat} {recvBuf : Nat → CclBuffer} {res : World α → Nat → Nat → α}

/-- Of the callers' buffers, nothing but the given elements of the receive buffers has changed. -/
def OnlyIn (n : Nat) (recvBuf : Nat → CclBuffer) (c : Nat × Nat) (w w' : World α) : Prop :=
  ∀ r < n, ∀ a, a.1.IsUser → a ∉ region (recvBuf r + c.1) c.2 → w' r a = w r a

/-- A chunk that computes its elements of the result and changes nothing else. -/
structure ChunkRight (n : Nat) (recvBuf : Nat → CclBuffer) (res : World α → Nat → Nat → α) (c : Nat × Nat)
    (w w' : World α) : Prop where
  only : OnlyIn n recvBuf c w w'
  right : ∀ r < n, ∀ i, c.1 ≤ i → i < c.1 + c.2 → w' r ((recvBuf r).at i) = res w r i

/-- An element of the result, of `len` elements, does not depend on other elements of the receive buffers. -/
def Elementwise (n len : Nat) (recvBuf : Nat → CclBuffer) (res : World α → Nat → Nat → α) : Prop :=
  ∀ c w w', c.1 + c.2 ≤ len → OnlyIn n recvBuf c w w' → ∀ r < n, ∀ i < len, (i < c.1 ∨ c.1 + c.2 ≤ i) →
    res w' r i = res w r i

theorem chunkRight_nil (lo : Nat) (w : World α) : ChunkRight n recvBuf res (lo, 0) w w :=
  ⟨fun _ _ _ _ _ => rfl, fun _ _ _ h h' => absurd h' h.not_gt⟩

theorem region_add_subset {b : CclBuffer} {k cnt k' cnt' : Nat} (h : k' ≤ k) (h' : k + cnt ≤ k' + cnt') :
    region (b + k) cnt ⊆ region (b + k') cnt' := by
  rintro a ⟨hsrc, hlo, hhi⟩
  rw [CclBuffer.add_offset] at hlo hhi
  refine ⟨hsrc, ?_, ?_⟩
  · rw [CclBuffer.add_offset]
    omega
  · rw [CclBuffer.add_offset]
    omega

variable {w w' w'' : World α}

theorem OnlyIn.trans (h : OnlyIn n recvBuf (lo, a) w w')
    (h' : OnlyIn n recvBuf (lo + a, b) w' w'') : OnlyIn n recvBuf (lo, a + b) w w'' := by
  intro r hr x hu hx
  rw [h' r hr x hu fun hc => hx (region_add_subset (Nat.le_add_right ..) ((Nat.add_assoc ..).le) hc),
    h r hr x hu fun hc => hx (region_add_subset (le_rfl) (by show lo + a ≤ lo + (a + b); omega) hc)]

theorem ChunkRight.trans (hres : Elementwise n len recvBuf res) (huser : ∀ r, (recvBuf r).src.IsUser)
    (hlen : lo + a + b ≤ len) (h : ChunkRight n recvBuf res (lo, a) w w')
    (h' : ChunkRight n recvBuf res (lo + a, b) w' w'') : ChunkRight n recvBuf res (lo, a + b) w w'' := by
  refine ⟨h.only.trans h'.only, fun r hr i hlo hhi => ?_⟩
  have hhi : i < lo + a + b := by
    rw [Nat.add_assoc]
    exact hhi
  rcases lt_or_ge i (lo + a) with hi | hi
  · rw [h'.only r hr _ (huser r) fun hc => absurd (at_mem_region_add.mp hc).1 hi.not_ge]
    exact h.right r hr i hlo hi
  · rw [h'.right r hr i hi hhi]
    exact hres _ _ _ ((Nat.le_add_right ..).trans hlen) h.only r hr i (hhi.trans_le hlen) (.inr hi)

/-- **The loop, up to where every chunk goes on.** -/
theorem runChunks_append (hres : Elementwise n len recvBuf res) (huser : ∀ r, (recvBuf r).src.IsUser)
    {chunk : Nat × Nat → World α → Except (Outcome (World α)) (World α)} (ht : Tiles lo cs mid) (hlen : mid ≤ len)
    (hstep : ∀ c ∈ cs, ∀ w, ∃ w', chunk c w = .ok w' ∧ ChunkRight n recvBuf res c w w') (w : World α) :
    ∃ w', ChunkRight n recvBuf res (lo, mid - lo) w w' ∧
      ∀ cs', runChunks chunk (cs ++ cs') w = runChunks chunk cs' w' := by
  induction cs generalizing lo w with
  | nil =>
    obtain rfl : lo = mid := ht
    rw [Nat.sub_self]
    exact ⟨w, chunkRight_nil lo w, fun _ => rfl⟩
  | cons c cs ih =>
    obtain ⟨c1, c2⟩ := c
    obtain ⟨rfl, ht⟩ := ht
    have hle := ht.le
    obtain ⟨w₁, hw₁, hright₁⟩ := hstep _ mem_cons_self w
    obtain ⟨w₂, hright₂, hrun⟩ := ih ht (fun c hc => hstep c (mem_cons_of_mem _ hc)) w₁
    refine ⟨w₂, ?_, fun cs' => ?_⟩
    · have htrans := hright₁.trans hres huser (show c1 + c2 + (mid - (c1 + c2)) ≤ len by omega) hright₂
      rwa [show c2 + (mid - (c1 + c2)) = mid - c1 by omega] at htrans
    · rw [cons_append, runChunks_cons_ok hw₁, hrun]

end

end OneCcl
