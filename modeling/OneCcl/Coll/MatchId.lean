import OneCcl.Coll.CollParam

/-!
# Generated match ids

With automatic caching and `cache_key_type = match_id`, `ccl_coll_create` makes up a match id for a call that has none, if the
call goes to a direct algorithm of MPI on a communicator with blocking collectives: a string of the call's data, and two calls
with equal strings share a schedule. The string has the first buffer, which is the only one of such a call, but only the sum
of the counts. So it tells calls apart exactly when their counts can be read off the sum (`matchId_separates_iff`).
-/

namespace OneCcl

open List

/-- How the output stream writes a pointer is up to the C++ library: as one word, and different for different pointers. -/
structure PtrFormat where
  print : Nat → List Char
  injective : Function.Injective print
  noSeparator : ∀ p, '_' ∉ print p

/-- How it writes an `int`. -/
def printInt (i : Int) : List Char := if i < 0 then '-' :: Nat.toDigits 10 i.natAbs else Nat.toDigits 10 i.natAbs

/-- `std::accumulate` on a vector of `size_t`. -/
def countsSum (counts : List Nat) : Nat := counts.sum % 2 ^ 64

/-- What `ccl_coll_create` reads of the settings: `enable_auto_cache`, whether `cache_key_type` is `match_id`,
`enable_sync_coll` of a communicator, and what the algorithm selection answers for a collective, a count, a datatype and a
communicator: whether it takes the direct algorithm. -/
structure CacheSettings where
  enableAutoCache : Bool
  keyIsMatchId : Bool
  enableSyncColl : Nat → Bool
  selectsDirect : CollType → Nat → Nat → Nat → Bool

section

variable (fmt : PtrFormat) (param : CollParam) (attr : CollAttr)

/-- The words of the string. A pointer to a function is written as a `bool`. -/
def matchIdWords : List (List Char) :=
  [Nat.toDigits 10 param.ctype.toNat, Nat.toDigits 10 param.dtype, Nat.toDigits 10 param.reduction,
    Nat.toDigits 10 param.sendCount, Nat.toDigits 10 param.count, printInt param.root, fmt.print param.comm,
    Nat.toDigits 10 (if attr.reductionFn = 0 then 0 else 1), Nat.toDigits 10 (countsSum param.sendCounts),
    Nat.toDigits 10 (countsSum param.recvCounts)] ++
  if param.ctype = .barrier then [] else [fmt.print (param.sendBufs.headD 0), fmt.print (param.recvBufs.headD 0)]

variable (settings : CacheSettings) (proc : Process)

/-- The count that the selection tables are looked up with: `get_count`. -/
def selectorCount : Nat :=
  match param.ctype with
  | .allgatherv => countsSum param.recvCounts / proc.size param.comm
  | .barrier => 0
  | _ => param.count

/-- `ccl_is_direct_algo`. No direct algorithm takes more than one buffer. -/
def cclIsDirectAlgo : Bool :=
  !attr.isVectorBuf && settings.selectsDirect param.ctype (selectorCount param proc) param.dtype param.comm

/-- The calls that `ccl_coll_create` makes up a match id for, among those on host memory that do not ask for caching
themselves. A `send` or a `recv` does not go to the cache. -/
def generatesMatchId : Bool :=
  !proc.ofi && cclIsDirectAlgo param attr settings proc && settings.enableSyncColl param.comm && settings.enableAutoCache &&
    (param.ctype != .send && param.ctype != .recv) && (settings.keyIsMatchId && attr.matchId.isEmpty)

/-- The match id of a call after `ccl_coll_create`: the user's, which may be empty, or the generated one. -/
def cclCollCreateMatchId : List Char :=
  if generatesMatchId param attr settings proc then ['_'].intercalate (matchIdWords fmt param attr) else attr.matchId

end

/-! ## Reading the words back -/

variable {n : Nat}

theorem toDigits_injective {m : Nat} (h : Nat.toDigits 10 m = Nat.toDigits 10 n) : m = n := by
  rw [← Nat.ofDigitChars_ten_toDigits (n := m), h, Nat.ofDigitChars_ten_toDigits]

theorem dash_notMem_toDigits : '-' ∉ Nat.toDigits 10 n := by
  intro h
  cases Nat.isDigit_of_mem_toDigits (by decide) (by decide) h

theorem printInt_injective {i j : Int} (h : printInt i = printInt j) : i = j := by
  unfold printInt at h
  split at h <;> split at h
  · have := toDigits_injective (cons.inj h).2
    omega
  · exact absurd (h ▸ mem_cons_self) dash_notMem_toDigits
  · exact absurd (h ▸ mem_cons_self) dash_notMem_toDigits
  · have := toDigits_injective h
    omega

theorem underscore_notMem_printInt (i : Int) : '_' ∉ printInt i := by
  unfold printInt
  split
  · intro h
    rcases mem_cons.mp h with h | h
    · cases h
    · exact Nat.underscore_not_in_toDigits h
  · exact Nat.underscore_not_in_toDigits

section

variable {fmt : PtrFormat} {param param' : CollParam} {attr attr' : CollAttr}

theorem underscore_notMem_matchIdWords : ∀ w ∈ matchIdWords fmt param attr, '_' ∉ w := by
  intro w hw
  have hdigits : ∀ n, '_' ∉ Nat.toDigits 10 n := fun n => Nat.underscore_not_in_toDigits
  rcases mem_append.mp hw with hw | hw
  · simp only [mem_cons, not_mem_nil, or_false] at hw
    rcases hw with rfl | rfl | rfl | rfl | rfl | rfl | rfl | rfl | rfl | rfl
    all_goals first | exact hdigits _ | exact underscore_notMem_printInt _ | exact fmt.noSeparator _
  · split at hw
    · cases hw
    · simp only [mem_cons, not_mem_nil, or_false] at hw
      rcases hw with rfl | rfl <;> exact fmt.noSeparator _

/-- **The string separates its words.** -/
theorem matchIdWords_eq_of_matchId
    (h : ['_'].intercalate (matchIdWords fmt param attr) = ['_'].intercalate (matchIdWords fmt param' attr')) :
    matchIdWords fmt param attr = matchIdWords fmt param' attr' := by
  have hsplit := congrArg (splitOn '_') h
  rwa [splitOn_intercalate _ underscore_notMem_matchIdWords (by simp [matchIdWords]),
    splitOn_intercalate _ underscore_notMem_matchIdWords (by simp [matchIdWords])] at hsplit

theorem intercalate_matchIdWords_ne_nil : ['_'].intercalate (matchIdWords fmt param attr) ≠ [] := by
  intro h
  have hsplit := congrArg (splitOn '_') h
  rw [splitOn_intercalate _ underscore_notMem_matchIdWords (by simp [matchIdWords])] at hsplit
  exact absurd hsplit (by simp [matchIdWords])

/-- What the words tell of two calls. -/
structure SameWords (param param' : CollParam) (attr attr' : CollAttr) : Prop where
  ctype : param.ctype = param'.ctype
  dtype : param.dtype = param'.dtype
  reduction : param.reduction = param'.reduction
  sendCount : param.sendCount = param'.sendCount
  count : param.count = param'.count
  root : param.root = param'.root
  comm : param.comm = param'.comm
  reductionFn : attr.reductionFn = 0 ↔ attr'.reductionFn = 0
  sends : countsSum param.sendCounts = countsSum param'.sendCounts
  recvs : countsSum param.recvCounts = countsSum param'.recvCounts
  bufs : param.ctype ≠ .barrier → param.sendBufs.headD 0 = param'.sendBufs.headD 0 ∧
    param.recvBufs.headD 0 = param'.recvBufs.headD 0

theorem matchIdWords_eq_iff :
    matchIdWords fmt param attr = matchIdWords fmt param' attr' ↔ SameWords param param' attr attr' := by
  constructor
  · intro h
    simp only [matchIdWords, cons_append, nil_append, cons.injEq] at h
    obtain ⟨hctype, hdtype, hred, hsc, hc, hroot, hcomm, hfn, hs, hr, hbufs⟩ := h
    have hctype := CollType.toNat_injective (toDigits_injective hctype)
    refine ⟨hctype, toDigits_injective hdtype, toDigits_injective hred, toDigits_injective hsc, toDigits_injective hc,
      printInt_injective hroot, fmt.injective hcomm, ?_, toDigits_injective hs, toDigits_injective hr, fun hb => ?_⟩
    · have := toDigits_injective hfn
      split at this <;> split at this <;> simp_all
    · rw [if_neg hb, if_neg (hctype ▸ hb)] at hbufs
      exact ⟨fmt.injective (cons.inj hbufs).1, fmt.injective (cons.inj (cons.inj hbufs).2).1⟩
  · intro h
    have hfn : (if attr.reductionFn = 0 then 0 else 1) = if attr'.reductionFn = 0 then 0 else 1 := by
      simp only [h.reductionFn]
    unfold matchIdWords
    rw [h.ctype, h.dtype, h.reduction, h.sendCount, h.count, h.root, h.comm, hfn, h.sends, h.recvs]
    congr 1
    split
    · rfl
    · next hb =>
      obtain ⟨hs, hr⟩ := h.bufs (h.ctype ▸ hb)
      rw [hs, hr]

/-- What a shared schedule needs two calls to have in common. -/
structure SameCall (param param' : CollParam) (attr attr' : CollAttr) : Prop where
  ctype : param.ctype = param'.ctype
  dtype : param.dtype = param'.dtype
  reduction : param.reduction = param'.reduction
  reductionFn : attr.reductionFn = attr'.reductionFn
  root : param.root = param'.root
  comm : param.comm = param'.comm
  sendBufs : param.sendBufs = param'.sendBufs
  recvBufs : param.recvBufs = param'.recvBufs
  sendCounts : param.sendCounts = param'.sendCounts
  recvCounts : param.recvCounts = param'.recvCounts

variable {settings : CacheSettings} {proc : Process}

/-- **Equal strings mean equal words**: a generated id is shared with the calls whose ids are generated from the same words. -/
theorem cclCollCreateMatchId_eq_iff (hgen : generatesMatchId param attr settings proc = true) (h' : attr'.matchId = []) :
    cclCollCreateMatchId fmt param attr settings proc = cclCollCreateMatchId fmt param' attr' settings proc ↔
      generatesMatchId param' attr' settings proc = true ∧ SameWords param param' attr attr' := by
  unfold cclCollCreateMatchId
  rw [if_pos hgen, h', ← (matchIdWords_eq_iff : matchIdWords fmt param attr = matchIdWords fmt param' attr' ↔ _)]
  split
  · next hgen' =>
    refine ⟨fun heq => ⟨hgen', matchIdWords_eq_of_matchId heq⟩, fun heq => ?_⟩
    rw [heq.2]
  · next hgen' => exact ⟨fun heq => absurd heq intercalate_matchIdWords_ne_nil, fun heq => absurd heq.1 hgen'⟩

/-- Whether a call gets a generated id depends on its words and attributes only. -/
theorem generatesMatchId_of_words (h : SameWords param param' attr attr)
    (hgen : generatesMatchId param attr settings proc = true) : generatesMatchId param' attr settings proc = true := by
  have hcount : selectorCount param proc = selectorCount param' proc := by
    unfold selectorCount
    rw [h.ctype, h.recvs, h.comm, h.count]
  rw [← hgen]
  unfold generatesMatchId cclIsDirectAlgo
  rw [h.ctype, h.dtype, h.comm, hcount]

theorem isVectorBuf_of_generates (hgen : generatesMatchId param attr settings proc = true) : attr.isVectorBuf = false := by
  simp only [generatesMatchId, cclIsDirectAlgo, Bool.and_eq_true, Bool.not_eq_true'] at hgen
  exact hgen.1.1.1.1.2.1

theorem reductionFn_of_generates (hgen : generatesMatchId param attr settings proc = true)
    (huser : validateUserInput proc param attr = true) : attr.reductionFn = 0 := by
  have hofi : proc.ofi = false := by
    simp only [generatesMatchId, Bool.and_eq_true, Bool.not_eq_true'] at hgen
    exact hgen.1.1.1.1.1
  simp only [validateUserInput, hofi, Bool.false_or, Bool.and_eq_true, beq_iff_eq] at huser
  exact huser.1.1.1.1.1

/-! ## Calls whose counts can be read off the sum -/

/-- The counts are single values, or they are the two of an `allgatherv`, of which the rank's own is the send count. -/
def CountsFromSum (proc : Process) (param : CollParam) : Prop :=
  param.ctype ≠ .allgatherv ∧ param.ctype ≠ .alltoallv ∨ proc.size param.comm = 1 ∨
    param.ctype = .allgatherv ∧ proc.size param.comm = 2

variable {l l' : List Nat}

theorem exists_take_eq_singleton (h : l.length = 1) {k : Nat} (hk : 0 < k) : ∃ x, l.take k = [x] := by
  obtain ⟨x, rfl⟩ := length_eq_one_iff.mp h
  exact ⟨x, take_of_length_le (show [x].length ≤ k from hk)⟩

theorem Created.bufs (h : Created proc attr param) (hv : attr.isVectorBuf = false) :
    param.ctype = .barrier ∧ param.sendBufs = [] ∧ param.recvBufs = [] ∨
      param.ctype ≠ .barrier ∧ (∃ b, param.sendBufs = [b]) ∧ ∃ b, param.recvBufs = [b] := by
  cases h with
  | allgatherv sendBuf count dtype comm recvBuf recvCounts hbufs hcounts =>
    rw [Process.bufCount, if_neg (ne_true_of_eq_false hv)] at hbufs
    refine .inr ⟨nofun, ⟨_, rfl⟩, ?_⟩
    show ∃ b, (if attr.isVectorBuf then _ else _) = [b]
    rw [if_neg (ne_true_of_eq_false hv)]
    exact exists_take_eq_singleton hbufs Nat.one_pos
  | alltoallv dtype comm sendBuf sendCounts recvBuf recvCounts hsend hrecv hsends hrecvs =>
    rw [Process.bufCount, if_neg (ne_true_of_eq_false hv)] at hsend hrecv
    refine .inr ⟨nofun, ?_, ?_⟩
    · show ∃ b, (if attr.isVectorBuf then _ else _) = [b]
      rw [if_neg (ne_true_of_eq_false hv)]
      exact exists_take_eq_singleton hsend Nat.one_pos
    · show ∃ b, (if attr.isVectorBuf then _ else _) = [b]
      rw [if_neg (ne_true_of_eq_false hv)]
      exact exists_take_eq_singleton hrecv Nat.one_pos
  | barrier => exact .inl ⟨rfl, rfl, rfl⟩
  | _ => exact .inr ⟨nofun, ⟨_, rfl⟩, _, rfl⟩

/-- The counts of such a call: one and one, or one and two, of which the first is at the rank's place. -/
theorem CollCall.counts (a : CollCall proc) (h : CountsFromSum proc a.param) : ∃ c, a.param.sendCounts = [c] ∧
    ((∃ c', a.param.recvCounts = [c']) ∧ (a.param.ctype ≠ .allgatherv ∨ proc.size a.param.comm = 1) ∨
      (a.param.ctype = .allgatherv ∧ proc.size a.param.comm = 2) ∧ a.param.recvCounts.length = 2 ∧
        a.param.recvCounts[proc.rank a.param.comm]? = some c) := by
  obtain ⟨param, attr, created, hvalid, huser, hslt, hrlt, hfits⟩ := a
  cases created with
  | allgatherv sendBuf count dtype comm recvBuf recvCounts hbufs hcounts =>
    have htake : recvCounts.take (proc.size comm) = recvCounts := take_of_length_le hcounts.le
    refine ⟨_, rfl, ?_⟩
    rcases h with h | hone | htwo
    · exact absurd rfl h.1
    · exact .inl ⟨exists_take_eq_singleton (hcounts.trans hone) (Nat.zero_lt_of_lt (proc.rank_lt comm)), .inr hone⟩
    · have hown : some count = recvCounts[proc.rank comm]? := by
        rw [validate_createAllgathervParam hbufs hcounts] at hvalid
        exact beq_iff_eq.mp hvalid
      refine .inr ⟨htwo, ?_⟩
      show (recvCounts.take (proc.size comm)).length = 2 ∧ (recvCounts.take (proc.size comm))[proc.rank comm]? = some count
      rw [htake]
      exact ⟨hcounts.trans htwo.2, hown.symm⟩
  | alltoallv dtype comm sendBuf sendCounts recvBuf recvCounts hsend hrecv hsends hrecvs =>
    have hone : proc.size comm = 1 := (h.resolve_left fun h => h.2 rfl).resolve_right nofun
    have hpos := Nat.zero_lt_of_lt (proc.rank_lt comm)
    obtain ⟨c, hc⟩ := exists_take_eq_singleton (hsends.trans hone) hpos
    exact ⟨c, hc, .inl ⟨exists_take_eq_singleton (hrecvs.trans hone) hpos, .inl nofun⟩⟩
  | _ => exact ⟨_, rfl, .inl ⟨⟨_, rfl⟩, .inl nofun⟩⟩

theorem singleton_eq_of_sum (h : ∃ c, l = [c]) (h' : ∃ c, l' = [c]) (hlt : ∀ c ∈ l, c < 2 ^ 64)
    (hlt' : ∀ c ∈ l', c < 2 ^ 64) (hsum : countsSum l = countsSum l') : l = l' := by
  obtain ⟨c, rfl⟩ := h
  obtain ⟨c', rfl⟩ := h'
  unfold countsSum at hsum
  rw [sum_singleton, sum_singleton, Nat.mod_eq_of_lt (hlt c mem_cons_self),
    Nat.mod_eq_of_lt (hlt' c' mem_cons_self)] at hsum
  rw [hsum]

/-- Of two counts, one and the sum give the other. -/
theorem pair_eq_of_sum (h : l.length = 2) (h' : l'.length = 2) {i c : Nat} (hi : l[i]? = some c) (hi' : l'[i]? = some c)
    (hlt : ∀ c ∈ l, c < 2 ^ 64) (hlt' : ∀ c ∈ l', c < 2 ^ 64) (hsum : countsSum l = countsSum l') : l = l' := by
  obtain ⟨x, y, rfl⟩ := length_eq_two.mp h
  obtain ⟨x', y', rfl⟩ := length_eq_two.mp h'
  have hx := hlt x (by simp)
  have hy := hlt y (by simp)
  have hx' := hlt' x' (by simp)
  have hy' := hlt' y' (by simp)
  simp only [countsSum, sum_cons, sum_nil] at hsum
  match i with
  | 0 =>
    obtain rfl : x = x' := Option.some.inj (hi.trans hi'.symm)
    rw [show y = y' by omega]
  | 1 =>
    obtain rfl : y = y' := Option.some.inj (hi.trans hi'.symm)
    rw [show x = x' by omega]
  | _ + 2 => cases hi

theorem singleton_eq_of_headD (h : ∃ b, l = [b]) (h' : ∃ b, l' = [b]) (hhead : l.headD 0 = l'.headD 0) : l = l' := by
  obtain ⟨b, rfl⟩ := h
  obtain ⟨b', rfl⟩ := h'
  exact congrArg (fun b => [b]) hhead

theorem bufs_eq_of_words {a b : CollCall proc} (hv : a.attr.isVectorBuf = false) (hv' : b.attr.isVectorBuf = false)
    (h : SameWords a.param b.param a.attr b.attr) :
    a.param.sendBufs = b.param.sendBufs ∧ a.param.recvBufs = b.param.recvBufs := by
  rcases a.created.bufs hv with ⟨hb, hsb, hrb⟩ | ⟨hb, hsb, hrb⟩ <;>
    rcases b.created.bufs hv' with ⟨hb', hsb', hrb'⟩ | ⟨hb', hsb', hrb'⟩
  · exact ⟨hsb.trans hsb'.symm, hrb.trans hrb'.symm⟩
  · exact absurd (h.ctype.symm.trans hb) hb'
  · exact absurd (h.ctype.trans hb') hb
  · obtain ⟨hheads, hheadr⟩ := h.bufs hb
    exact ⟨singleton_eq_of_headD hsb hsb' hheads, singleton_eq_of_headD hrb hrb' hheadr⟩

theorem counts_eq_of_words {a b : CollCall proc} (hs : CountsFromSum proc a.param)
    (h : SameWords a.param b.param a.attr b.attr) :
    a.param.sendCounts = b.param.sendCounts ∧ a.param.recvCounts = b.param.recvCounts := by
  have hs' : CountsFromSum proc b.param := by
    unfold CountsFromSum at *
    rwa [← h.ctype, ← h.comm]
  obtain ⟨c, hc, hrecv⟩ := a.counts hs
  obtain ⟨c', hc', hrecv'⟩ := b.counts hs'
  have hsends := singleton_eq_of_sum ⟨c, hc⟩ ⟨c', hc'⟩ a.sendCounts_lt b.sendCounts_lt h.sends
  refine ⟨hsends, ?_⟩
  rw [← h.ctype, ← h.comm] at hrecv'
  rcases hrecv with ⟨hone, hnot⟩ | ⟨htwo, hlen, hget⟩ <;> rcases hrecv' with ⟨hone', hnot'⟩ | ⟨htwo', hlen', hget'⟩
  · exact singleton_eq_of_sum hone hone' a.recvCounts_lt b.recvCounts_lt h.recvs
  · rcases hnot with hnot | hnot
    · exact absurd htwo'.1 hnot
    · omega
  · rcases hnot' with hnot' | hnot'
    · exact absurd htwo.1 hnot'
    · omega
  · obtain rfl : c = c' := by
      rw [hc, hc'] at hsends
      exact (cons.inj hsends).1
    exact pair_eq_of_sum hlen hlen' hget hget' a.recvCounts_lt b.recvCounts_lt h.recvs

/-! ## Other counts with one sum -/

/-- One more at `i` and one less at `j`, as `size_t`. -/
def shiftCounts (l : List Nat) (i j : Nat) : List Nat :=
  (l.modify i fun c => (c + 1) % 2 ^ 64).modify j fun c => (c + (2 ^ 64 - 1)) % 2 ^ 64

theorem sum_modify {f : Nat → Nat} {i c : Nat} (h : l[i]? = some c) : (l.modify i f).sum + c = l.sum + f c := by
  induction l generalizing i with
  | nil => cases h
  | cons x l ih =>
    cases i with
    | zero =>
      obtain rfl : x = c := Option.some.inj h
      simp only [modify_zero_cons, sum_cons]
      omega
    | succ i =>
      have := ih h
      simp only [modify_succ_cons, sum_cons]
      omega

theorem forall_mem_modify {f : Nat → Nat} {i : Nat} {p : Nat → Prop} (h : ∀ c ∈ l, p c) (hf : ∀ c, p (f c)) :
    ∀ c ∈ l.modify i f, p c := by
  intro c hc
  obtain ⟨k, hk⟩ := mem_iff_getElem?.mp hc
  rw [getElem?_modify] at hk
  obtain ⟨x, hx, rfl⟩ := Option.map_eq_some_iff.mp hk
  split
  · exact hf x
  · exact h x (mem_of_getElem? hx)

section

variable {i j : Nat}

theorem length_shiftCounts : (shiftCounts l i j).length = l.length := by
  simp [shiftCounts]

theorem take_shiftCounts {n : Nat} (h : l.length = n) : (shiftCounts l i j).take n = shiftCounts (l.take n) i j := by
  rw [take_of_length_le h.le, take_of_length_le (length_shiftCounts.trans h).le]

theorem shiftCounts_lt (h : ∀ c ∈ l, c < 2 ^ 64) : ∀ c ∈ shiftCounts l i j, c < 2 ^ 64 :=
  forall_mem_modify (forall_mem_modify h fun _ => Nat.mod_lt _ (by decide)) fun _ => Nat.mod_lt _ (by decide)

theorem getElem?_shiftCounts_of_ne {k : Nat} (hi : i ≠ k) (hj : j ≠ k) : (shiftCounts l i j)[k]? = l[k]? := by
  rw [shiftCounts, getElem?_modify_ne _ _ hj, getElem?_modify_ne _ _ hi]

variable (hne : i ≠ j)

include hne

theorem getElem?_shiftCounts : (shiftCounts l i j)[i]? = l[i]?.map fun c => (c + 1) % 2 ^ 64 := by
  rw [shiftCounts, getElem?_modify_ne _ _ hne.symm, getElem?_modify_eq]
  rfl

theorem shiftCounts_ne (hi : i < l.length) : l ≠ shiftCounts l i j := by
  intro heq
  have hget := congrArg (·[i]?) heq
  simp only [getElem?_shiftCounts hne, getElem?_eq_getElem hi, Option.map_some, Option.some.injEq] at hget
  omega

/-- The sum stays. -/
theorem countsSum_shiftCounts (hi : i < l.length) (hj : j < l.length) : countsSum (shiftCounts l i j) = countsSum l := by
  have hfirst := sum_modify (f := fun c => (c + 1) % 2 ^ 64) (getElem?_eq_getElem hi)
  have hget : (l.modify i fun c => (c + 1) % 2 ^ 64)[j]? = some l[j] := by
    rw [getElem?_modify_ne _ _ hne, getElem?_eq_getElem hj]
  have hsecond := sum_modify (f := fun c => (c + (2 ^ 64 - 1)) % 2 ^ 64) hget
  unfold countsSum shiftCounts
  omega

end

theorem exists_other_recvCounts (a : CollCall proc) (h : a.param.ctype = .allgatherv) (hsize : 3 ≤ proc.size a.param.comm) :
    ∃ b : CollCall proc, b.attr = a.attr ∧ SameWords a.param b.param a.attr b.attr ∧
      a.param.recvCounts ≠ b.param.recvCounts := by
  obtain ⟨param, attr, created, hvalid, huser, hslt, hrlt, hfits⟩ := a
  cases created with
  | allgatherv sendBuf count dtype comm recvBuf recvCounts hbufs hcounts =>
    -- two ranks other than this one
    obtain ⟨i, j, hne, hi, hj, hri, hrj⟩ : ∃ i j, i ≠ j ∧ i < proc.size comm ∧ j < proc.size comm ∧
        i ≠ proc.rank comm ∧ j ≠ proc.rank comm := by
      have hsize : 3 ≤ proc.size comm := hsize
      match proc.rank comm with
      | 0 => exact ⟨1, 2, by omega, by omega, by omega, by omega, by omega⟩
      | 1 => exact ⟨0, 2, by omega, by omega, by omega, by omega, by omega⟩
      | _ + 2 => exact ⟨0, 1, by omega, by omega, by omega, by omega, by omega⟩
    have hlen : (shiftCounts recvCounts i j).length = proc.size comm := length_shiftCounts.trans hcounts
    have hlt : ∀ {k}, k < proc.size comm → k < (recvCounts.take (proc.size comm)).length := by
      rw [take_of_length_le hcounts.le, hcounts]
      exact id
    refine ⟨⟨_, attr, .allgatherv sendBuf count dtype comm recvBuf _ hbufs hlen, ?_, huser, hslt, ?_, nofun⟩, rfl,
      ⟨rfl, rfl, rfl, rfl, rfl, rfl, rfl, Iff.rfl, rfl, ?_, fun _ => ⟨rfl, rfl⟩⟩, ?_⟩
    · rw [validate_createAllgathervParam hbufs hlen, getElem?_shiftCounts_of_ne hri hrj,
        ← validate_createAllgathervParam hbufs hcounts]
      exact hvalid
    · show ∀ c ∈ (shiftCounts recvCounts i j).take _, c < 2 ^ 64
      rw [take_shiftCounts hcounts]
      exact shiftCounts_lt hrlt
    · show countsSum (recvCounts.take _) = countsSum ((shiftCounts recvCounts i j).take _)
      rw [take_shiftCounts hcounts, countsSum_shiftCounts hne (hlt hi) (hlt hj)]
    · show recvCounts.take _ ≠ (shiftCounts recvCounts i j).take _
      rw [take_shiftCounts hcounts]
      exact shiftCounts_ne hne (hlt hi)
  | _ => cases h

theorem exists_other_sendCounts (a : CollCall proc) (h : a.param.ctype = .alltoallv) (hsize : proc.size a.param.comm ≠ 1) :
    ∃ b : CollCall proc, b.attr = a.attr ∧ SameWords a.param b.param a.attr b.attr ∧
      a.param.sendCounts ≠ b.param.sendCounts := by
  obtain ⟨param, attr, created, hvalid, huser, hslt, hrlt, hfits⟩ := a
  cases created with
  | alltoallv dtype comm sendBuf sendCounts recvBuf recvCounts hsend hrecv hsends hrecvs =>
    have hrank := proc.rank_lt comm
    -- what the rank sends to itself, and another rank
    obtain ⟨j, hne, hj⟩ : ∃ j, proc.rank comm ≠ j ∧ j < proc.size comm := by
      have hsize : proc.size comm ≠ 1 := hsize
      match hr : proc.rank comm with
      | 0 => exact ⟨1, by omega, by omega⟩
      | _ + 1 => exact ⟨0, by omega, by omega⟩
    have hsl : (shiftCounts sendCounts (proc.rank comm) j).length = proc.size comm := length_shiftCounts.trans hsends
    have hlt : ∀ {counts : List Nat} {k}, counts.length = proc.size comm → k < proc.size comm →
        k < (counts.take (proc.size comm)).length := by
      intro counts k h hk
      rwa [take_of_length_le h.le, h]
    have hrl : (shiftCounts recvCounts (proc.rank comm) j).length = proc.size comm := length_shiftCounts.trans hrecvs
    refine ⟨⟨_, attr, .alltoallv dtype comm sendBuf _ recvBuf _ hsend hrecv hsl hrl, ?_, huser, ?_, ?_, nofun⟩, rfl,
      ⟨rfl, rfl, rfl, rfl, rfl, rfl, rfl, Iff.rfl, ?_, ?_, fun _ => ⟨rfl, rfl⟩⟩, ?_⟩
    · rw [validate_createAlltoallvParam hsend hrecv hsends hrecvs] at hvalid
      rw [validate_createAlltoallvParam hsend hrecv hsl hrl, getElem?_shiftCounts hne, getElem?_shiftCounts hne,
        beq_iff_eq.mp hvalid]
      exact beq_self_eq_true _
    · show ∀ c ∈ (shiftCounts sendCounts _ j).take _, c < 2 ^ 64
      rw [take_shiftCounts hsends]
      exact shiftCounts_lt hslt
    · show ∀ c ∈ (shiftCounts recvCounts _ j).take _, c < 2 ^ 64
      rw [take_shiftCounts hrecvs]
      exact shiftCounts_lt hrlt
    · show countsSum (sendCounts.take _) = countsSum ((shiftCounts sendCounts _ j).take _)
      rw [take_shiftCounts hsends, countsSum_shiftCounts hne (hlt hsends hrank) (hlt hsends hj)]
    · show countsSum (recvCounts.take _) = countsSum ((shiftCounts recvCounts _ j).take _)
      rw [take_shiftCounts hrecvs, countsSum_shiftCounts hne (hlt hrecvs hrank) (hlt hrecvs hj)]
    · show sendCounts.take _ ≠ (shiftCounts sendCounts _ j).take _
      rw [take_shiftCounts hsends]
      exact shiftCounts_ne hne (hlt hsends hrank)
  | _ => cases h

end

/-- **Generated match ids.** A call with a generated match id shares it only with calls of the same data exactly when its
collective is neither `allgatherv` nor `alltoallv`, or there is one rank, or it is an `allgatherv` on two ranks. -/
theorem matchId_separates_iff (fmt : PtrFormat) (settings : CacheSettings) {proc : Process} (a : CollCall proc)
    (hgen : generatesMatchId a.param a.attr settings proc = true) : (∀ b : CollCall proc, b.attr.matchId = [] →
        cclCollCreateMatchId fmt a.param a.attr settings proc = cclCollCreateMatchId fmt b.param b.attr settings proc →
        SameCall a.param b.param a.attr b.attr) ↔
      CountsFromSum proc a.param := by
  constructor
  · intro h
    have hid : a.attr.matchId = [] := by
      simp only [generatesMatchId, Bool.and_eq_true, List.isEmpty_iff] at hgen
      exact hgen.2.2
    have hsame : ∀ b : CollCall proc, b.attr = a.attr → SameWords a.param b.param a.attr b.attr →
        SameCall a.param b.param a.attr b.attr := by
      intro b hb hwords
      have hb' : b.attr.matchId = [] := by rw [hb, hid]
      refine h b hb' ((cclCollCreateMatchId_eq_iff hgen hb').mpr ⟨?_, hwords⟩)
      rw [hb] at hwords ⊢
      exact generatesMatchId_of_words hwords hgen
    have hpos : 0 < proc.size a.param.comm := Nat.zero_lt_of_lt (proc.rank_lt _)
    by_contra hmany
    simp only [CountsFromSum, not_or, not_and_or, not_not] at hmany
    obtain ⟨hctype | hctype, hone, htwo⟩ := hmany
    · have htwo := htwo.resolve_left fun hn => hn hctype
      obtain ⟨b, hb, hwords, hdiff⟩ := exists_other_recvCounts a hctype (by omega)
      exact hdiff (hsame b hb hwords).recvCounts
    · obtain ⟨b, hb, hwords, hdiff⟩ := exists_other_sendCounts a hctype hone
      exact hdiff (hsame b hb hwords).sendCounts
  · intro hs b hb heq
    obtain ⟨hgen', hwords⟩ := (cclCollCreateMatchId_eq_iff hgen hb).mp heq
    obtain ⟨hsb, hrb⟩ := bufs_eq_of_words (isVectorBuf_of_generates hgen) (isVectorBuf_of_generates hgen') hwords
    obtain ⟨hsc, hrc⟩ := counts_eq_of_words hs hwords
    have hfn := reductionFn_of_generates hgen a.validateUserInput
    have hfn' := reductionFn_of_generates hgen' b.validateUserInput
    exact ⟨hwords.ctype, hwords.dtype, hwords.reduction, hfn.trans hfn'.symm, hwords.root, hwords.comm, hsb, hrb, hsc, hrc⟩

/-! ## Calls of a process with three ranks -/

def decimalFormat : PtrFormat where
  print := Nat.toDigits 10
  injective := fun _ _ h => toDigits_injective h
  noSeparator := fun _ => Nat.underscore_not_in_toDigits

def threeRanks : Process where
  ofi := false
  isPredefined := fun _ => true
  dtypeSize := fun _ => 4
  size := fun _ => 3
  rank := fun _ => 0
  rank_lt := fun _ => by decide

/-- Automatic caching by match ids, blocking collectives, and direct algorithms for all calls. -/
def directSettings : CacheSettings := ⟨true, true, fun _ => true, fun _ _ _ _ => true⟩

/-- An `allreduce` of ten elements. -/
def allreduceCall : CollCall threeRanks where
  param := createAllreduceParam 4096 8192 10 7 1 0
  attr := {}
  created := .allreduce _ _ _ _ _ _
  validate := by decide
  validateUserInput := by decide
  sendCounts_lt := by decide
  recvCounts_lt := by decide
  fits := nofun

/-- It has its match id for itself. -/
theorem allreduce_matchId_separates : (∀ b : CollCall threeRanks, b.attr.matchId = [] →
        cclCollCreateMatchId decimalFormat allreduceCall.param allreduceCall.attr directSettings threeRanks =
          cclCollCreateMatchId decimalFormat b.param b.attr directSettings threeRanks →
        SameCall allreduceCall.param b.param allreduceCall.attr b.attr) ↔
      CountsFromSum threeRanks allreduceCall.param :=
  matchId_separates_iff decimalFormat directSettings allreduceCall (by decide)

/-- An `allgatherv` of one element from rank 0, and as given from the others. -/
def allgathervCall (second third : Nat) (h : second < 2 ^ 64) (h' : third < 2 ^ 64) : CollCall threeRanks where
  param := createAllgathervParam threeRanks {} 4096 1 7 1 [8192] [1, second, third]
  attr := {}
  created := .allgatherv _ _ _ _ _ _ rfl rfl
  validate := rfl
  validateUserInput := rfl
  sendCounts_lt := fun c hc => by
    rw [mem_singleton.mp hc]
    decide
  recvCounts_lt := fun c hc => by
    simp only [createAllgathervParam, threeRanks, take_succ_cons, take_zero, mem_cons, not_mem_nil,
      or_false] at hc
    rcases hc with rfl | rfl | rfl
    · decide
    · exact h
    · exact h'
  fits := nofun

/-- Two of them get one generated match id, and have different counts. -/
theorem allgatherv_matchIds_collide :
    generatesMatchId (allgathervCall 1 2 (by decide) (by decide)).param {} directSettings threeRanks = true ∧
    cclCollCreateMatchId decimalFormat (allgathervCall 1 2 (by decide) (by decide)).param {} directSettings threeRanks =
      cclCollCreateMatchId decimalFormat (allgathervCall 2 1 (by decide) (by decide)).param {} directSettings threeRanks ∧
    (allgathervCall 1 2 (by decide) (by decide)).param.recvCounts ≠
      (allgathervCall 2 1 (by decide) (by decide)).param.recvCounts :=
  ⟨rfl, (cclCollCreateMatchId_eq_iff rfl rfl).mpr ⟨rfl, rfl, rfl, rfl, rfl, rfl, rfl, rfl, Iff.rfl, rfl, rfl,
    fun _ => ⟨rfl, rfl⟩⟩, by decide⟩

end OneCcl
