import OneCcl.Coll.CollParam

/-!
# Keys of the schedule cache

With `cache_key_type = full` a call takes a cached schedule when its `ccl_sched_key` compares equal to the key of the call
that the schedule was built for. The schedule keeps what its builder read of that call; of the new call
`update_coll_param_and_attr` only takes the buffers. A key has all the counts, and neither whether the buffers coincide nor
whether they are vectors, and every collective with two buffers has a builder that asks for the one or the other. So equal
keys give a fitting schedule exactly for the collectives with one buffer (`schedKey_agree_iff`). The `check` of a key
that was found takes the comparisons that all calls have for alternatives (`schedKey_check_iff`).
-/

namespace OneCcl

open List CollParam

/-- `ccl_sched_key`, without the fields `buf1` and `buf2` that nothing sets. -/
structure SchedKey where
  ctype : CollType
  dtype : Nat
  reduction : Nat := 0
  count1 : Nat := 0
  count2 : Nat := 0
  root : Int := 0
  peerRank : Int := 0
  groupId : Int := 0
  comm : Nat
  reductionFn : Nat
  vec1 : List Nat := []
  vec2 : List Nat := []
  matchId : List Char
  deriving DecidableEq, Repr

open SchedKey

def CollParam.getSendCount (param : CollParam) : Nat := param.sendCounts.headD 0

def CollParam.getRecvCount (param : CollParam) : Nat := param.recvCounts.headD 0

/-- `ccl_sched_key::set`. For a full key the fields that a collective does not set are zero. -/
def SchedKey.set (param : CollParam) (attr : CollAttr) : SchedKey :=
  let key : SchedKey :=
    { reductionFn := attr.reductionFn, matchId := attr.matchId, ctype := param.ctype, dtype := param.dtype,
      comm := param.comm }
  match param.ctype with
  | .allgather => { key with count1 := param.getSendCount }
  | .allgatherv => { key with count1 := param.getSendCount, vec1 := param.recvCounts }
  | .allreduce => { key with count1 := param.getSendCount, reduction := param.reduction }
  | .alltoall => { key with count1 := param.getSendCount }
  | .alltoallv => { key with vec1 := param.sendCounts, vec2 := param.recvCounts }
  | .barrier => key
  | .bcast => { key with count1 := param.getSendCount, root := param.root }
  | .broadcast => { key with count1 := param.getSendCount, root := param.root }
  | .reduce => { key with count1 := param.getSendCount, reduction := param.reduction, root := param.root }
  | .reduceScatter => { key with count1 := param.getSendCount, reduction := param.reduction }
  | .recv => { key with count1 := param.getRecvCount, peerRank := param.peerRank, groupId := param.groupId }
  | .send => { key with count1 := param.getSendCount, peerRank := param.peerRank, groupId := param.groupId }

/-- Collectives whose calls name one buffer or none. -/
def CollType.OneBuffer (ctype : CollType) : Prop :=
  ctype = .barrier ∨ ctype = .bcast ∨ ctype = .send ∨ ctype = .recv

instance (ctype : CollType) : Decidable ctype.OneBuffer := inferInstanceAs (Decidable (_ ∨ _))

/-- Whether the send buffer is where the results go, as the builders ask: `ccl_coll_param::is_inplace` with
`is_allgatherv_inplace` and `is_reduce_scatter_inplace`. -/
def CollParam.bufsCoincide (proc : Process) (param : CollParam) : Bool :=
  let rank := proc.rank param.comm
  let dtypeSize := proc.dtypeSize param.dtype
  let sendBuf := param.sendBufs.headD 0
  let recvBuf := param.recvBufs.headD 0
  match param.ctype with
  | .barrier | .bcast | .send | .recv => true
  | .allgather => sendBuf == 0 || sendBuf == recvBuf + rank * param.getRecvCount * dtypeSize
  | .allgatherv =>
    if param.recvBufs.length = 1 then
      sendBuf == 0 || sendBuf == recvBuf + (param.recvCounts.take rank).sum * dtypeSize
    else sendBuf != 0 && some sendBuf == param.recvBufs[rank]?
  | .reduceScatter => recvBuf == sendBuf + rank * (param.getRecvCount * dtypeSize)
  | .alltoall | .alltoallv | .allreduce | .broadcast | .reduce => sendBuf != 0 && sendBuf == recvBuf

/-- What the builders read of a call and a later call does not change. -/
structure Agree (proc : Process) (param param' : CollParam) (attr attr' : CollAttr) : Prop where
  ctype : param.ctype = param'.ctype
  dtype : param.dtype = param'.dtype
  reduction : param.reduction = param'.reduction
  reductionFn : attr.reductionFn = attr'.reductionFn
  root : param.root = param'.root
  peerRank : param.peerRank = param'.peerRank
  sendCounts : param.sendCounts = param'.sendCounts
  recvCounts : param.recvCounts = param'.recvCounts
  comm : param.comm = param'.comm
  bufsCoincide : param.bufsCoincide proc = param'.bufsCoincide proc
  isVectorBuf : attr.isVectorBuf = attr'.isVectorBuf

/-! ## Reading a key back -/

namespace SchedKey

def readRoot (key : SchedKey) : Int :=
  match key.ctype with
  | .bcast | .broadcast | .reduce => key.root
  | _ => -1

def readPeerRank (key : SchedKey) : Int :=
  match key.ctype with
  | .send | .recv => key.peerRank
  | _ => -1

def readSendCounts (key : SchedKey) : List Nat :=
  match key.ctype with
  | .alltoallv => key.vec1
  | _ => [key.count1]

def readRecvCounts (proc : Process) (key : SchedKey) : List Nat :=
  match key.ctype with
  | .allgatherv => key.vec1
  | .alltoallv => key.vec2
  | .reduceScatter => [key.count1 / proc.size key.comm]
  | _ => [key.count1]

section

variable (param : CollParam) (attr : CollAttr)

@[simp] theorem set_ctype : (set param attr).ctype = param.ctype := by
  unfold set
  split <;> rfl

@[simp] theorem set_dtype : (set param attr).dtype = param.dtype := by
  unfold set
  split <;> rfl

@[simp] theorem set_comm : (set param attr).comm = param.comm := by
  unfold set
  split <;> rfl

@[simp] theorem set_reductionFn : (set param attr).reductionFn = attr.reductionFn := by
  unfold set
  split <;> rfl

end

variable {proc : Process}

/-- **The key of a call tells its data but the buffers.** -/
theorem read_set (a : CollCall proc) :
    a.param.reduction = (set a.param a.attr).reduction ∧ a.param.root = (set a.param a.attr).readRoot ∧
    a.param.peerRank = (set a.param a.attr).readPeerRank ∧ a.param.sendCounts = (set a.param a.attr).readSendCounts ∧
    a.param.recvCounts = (set a.param a.attr).readRecvCounts proc := by
  obtain ⟨param, attr, created, hvalid, huser, hslt, hrlt, hfits⟩ := a
  cases created with
  | reduceScatter sendBuf recvBuf count dtype comm reduction =>
    refine ⟨rfl, rfl, rfl, rfl, ?_⟩
    have hfit : proc.size comm * count < 2 ^ 64 := hfits rfl count mem_cons_self
    have hpos : 0 < proc.size comm := Nat.zero_lt_of_lt (proc.rank_lt comm)
    show [count] = [proc.size comm * count % 2 ^ 64 / proc.size comm]
    rw [Nat.mod_eq_of_lt hfit, Nat.mul_div_cancel_left count hpos]
  | _ => exact ⟨rfl, rfl, rfl, rfl, rfl⟩

end SchedKey

section

variable {proc : Process}

theorem agree_of_key {a b : CollCall proc} (h : set a.param a.attr = set b.param b.attr)
    (hbufs : a.param.bufsCoincide proc = b.param.bufsCoincide proc) (hvec : a.attr.isVectorBuf = b.attr.isVectorBuf) :
    Agree proc a.param b.param a.attr b.attr := by
  obtain ⟨hred, hroot, hpeer, hsend, hrecv⟩ := read_set a
  obtain ⟨hred', hroot', hpeer', hsend', hrecv'⟩ := read_set b
  rw [h] at hred hroot hpeer hsend hrecv
  refine ⟨?_, ?_, hred.trans hred'.symm, ?_, hroot.trans hroot'.symm, hpeer.trans hpeer'.symm, hsend.trans hsend'.symm,
    hrecv.trans hrecv'.symm, ?_, hbufs, hvec⟩
  · simpa using congrArg SchedKey.ctype h
  · simpa using congrArg SchedKey.dtype h
  · simpa using congrArg reductionFn h
  · simpa using congrArg SchedKey.comm h

/-! ## Calls with one key -/

/-- The parameters with other buffers, as many as before. -/
def CollParam.withBufs (param : CollParam) (sendBuf recvBuf : Nat) : CollParam :=
  { param with
    sendBufs := replicate param.sendBufs.length sendBuf, recvBufs := replicate param.recvBufs.length recvBuf }

variable {param : CollParam}

theorem Created.withBufs {attr : CollAttr} (h : Created proc attr param) (ht : ¬param.ctype.OneBuffer)
    (sendBuf recvBuf : Nat) : Created proc attr (param.withBufs sendBuf recvBuf) := by
  cases h with
  | allgatherv sendBuf' count dtype comm recvBufs recvCounts hbufs hcounts =>
    have hlen := (length_replicate (n := recvBufs.length) (a := recvBuf)).trans hbufs
    have heq : (createAllgathervParam proc attr sendBuf' count dtype comm recvBufs recvCounts).withBufs sendBuf recvBuf =
        createAllgathervParam proc attr sendBuf count dtype comm (replicate recvBufs.length recvBuf) recvCounts := by
      simp only [withBufs, createAllgathervParam, take_bufs hbufs, take_bufs hlen, length_singleton,
        replicate_one]
    rw [heq]
    exact .allgatherv _ _ _ _ _ _ hlen hcounts
  | alltoallv dtype comm sendBufs sendCounts recvBufs recvCounts hsend hrecv hsends hrecvs =>
    have hlens := (length_replicate (n := sendBufs.length) (a := sendBuf)).trans hsend
    have hlenr := (length_replicate (n := recvBufs.length) (a := recvBuf)).trans hrecv
    have heq : (createAlltoallvParam proc attr dtype comm sendBufs sendCounts recvBufs recvCounts).withBufs sendBuf recvBuf =
        createAlltoallvParam proc attr dtype comm (replicate sendBufs.length sendBuf) sendCounts
          (replicate recvBufs.length recvBuf) recvCounts := by
      simp only [withBufs, createAlltoallvParam, take_bufs hsend, take_bufs hrecv, take_bufs hlens,
        take_bufs hlenr]
    rw [heq]
    exact .alltoallv _ _ _ _ _ _ hlens hlenr hsends hrecvs
  | barrier => exact absurd (.inl rfl) ht
  | bcast => exact absurd (.inr (.inl rfl)) ht
  | send => exact absurd (.inr (.inr (.inl rfl))) ht
  | recv => exact absurd (.inr (.inr (.inr rfl))) ht
  | _ => constructor

theorem validate_withBufs (ht : ¬param.ctype.OneBuffer) (sendBuf recvBuf : Nat) :
    (param.withBufs sendBuf recvBuf).validate proc = param.validate proc := by
  have hempty : ∀ (l : List Nat) (x : Nat), (replicate l.length x).isEmpty = l.isEmpty := by
    intro l x
    cases l <;> rfl
  obtain ⟨ctype⟩ := param
  unfold validate withBufs
  simp only [hempty, length_replicate]
  cases ctype with
  | bcast => exact absurd (.inr (.inl rfl)) ht
  | _ => rfl

def CollCall.withBufs (a : CollCall proc) (ht : ¬a.param.ctype.OneBuffer) (sendBuf recvBuf : Nat) : CollCall proc where
  param := a.param.withBufs sendBuf recvBuf
  attr := a.attr
  created := a.created.withBufs ht sendBuf recvBuf
  validate := (validate_withBufs ht sendBuf recvBuf).trans a.validate
  validateUserInput := a.validateUserInput
  sendCounts_lt := a.sendCounts_lt
  recvCounts_lt := a.recvCounts_lt
  fits := a.fits

theorem CollCall.length_bufs (a : CollCall proc) (ht : ¬a.param.ctype.OneBuffer) :
    0 < a.param.sendBufs.length ∧ 0 < a.param.recvBufs.length := by
  have h := a.validate
  have hb : (a.param.ctype == .barrier) = false := beq_eq_false_iff_ne.mpr fun h => ht (.inl h)
  unfold CollParam.validate at h
  simp only [hb, Bool.false_or, Bool.and_eq_true, Bool.not_eq_true', isEmpty_eq_false_iff] at h
  obtain ⟨⟨⟨-, hs⟩, hr⟩, -⟩ := h
  exact ⟨length_pos_iff.mpr hs, length_pos_iff.mpr hr⟩

theorem CollCall.rank_lt_recvBufs (a : CollCall proc) (h : a.param.ctype = .allgatherv) (hlen : a.param.recvBufs.length ≠ 1) :
    proc.rank a.param.comm < a.param.recvBufs.length := by
  obtain ⟨param, attr, created, _, _, _, _, _⟩ := a
  cases created with
  | allgatherv sendBuf count dtype comm recvBuf recvCounts hbufs hcounts =>
    have hrecv : (createAllgathervParam proc attr sendBuf count dtype comm recvBuf recvCounts).recvBufs.length = _ :=
      (congrArg length (recvBufs_createAllgathervParam attr hbufs)).trans hbufs
    unfold Process.bufCount at hrecv
    split at hrecv
    · exact hrecv ▸ proc.rank_lt comm
    · exact absurd hrecv hlen
  | _ => cases h

theorem headD_replicate {k x : Nat} (h : 0 < k) : (replicate k x).headD 0 = x := by
  obtain ⟨k, rfl⟩ := Nat.exists_eq_add_of_lt h
  rfl

theorem exists_bufs (a : CollCall proc) (ht : ¬a.param.ctype.OneBuffer) (coincide : Bool) : ∃ sendBuf recvBuf,
    (a.param.withBufs sendBuf recvBuf).bufsCoincide proc = coincide := by
  obtain ⟨hs, hr⟩ := a.length_bufs ht
  unfold bufsCoincide
  simp only [withBufs, headD_replicate hs, headD_replicate hr, length_replicate, getRecvCount]
  have hshift : ∀ offset, ∃ sendBuf recvBuf : Nat, (sendBuf == 0 || sendBuf == recvBuf + offset) = coincide := by
    intro offset
    cases coincide with
    | true => exact ⟨1 + offset, 1, by simp⟩
    | false => exact ⟨2 + offset, 1, by simp⟩
  have hsame : ∃ sendBuf recvBuf : Nat, (sendBuf != 0 && sendBuf == recvBuf) = coincide := by
    cases coincide with
    | true => exact ⟨1, 1, rfl⟩
    | false => exact ⟨2, 1, rfl⟩
  cases hc : a.param.ctype with
  | allgather => exact hshift _
  | allgatherv =>
    by_cases hlen : a.param.recvBufs.length = 1
    · simp only [if_pos hlen]
      exact hshift _
    · obtain ⟨sendBuf, recvBuf, h⟩ := hsame
      refine ⟨sendBuf, recvBuf, ?_⟩
      simp only [if_neg hlen, getElem?_replicate, if_pos (a.rank_lt_recvBufs hc hlen)]
      exact h
  | reduceScatter =>
    cases coincide with
    | true => exact ⟨1, _, beq_self_eq_true _⟩
    | false => exact ⟨1, 1 + _ + 1, beq_eq_false_iff_ne.mpr (Nat.succ_ne_self _)⟩
  | barrier => exact absurd (.inl hc) ht
  | bcast => exact absurd (.inr (.inl hc)) ht
  | send => exact absurd (.inr (.inr (.inl hc))) ht
  | recv => exact absurd (.inr (.inr (.inr hc))) ht
  | _ => exact hsame

theorem bufsCoincide_of_oneBuffer (h : param.ctype.OneBuffer) : param.bufsCoincide proc = true := by
  unfold bufsCoincide
  rcases h with h | h | h | h <;> simp only [h]

theorem CollCall.isVectorBuf_eq_false (a : CollCall proc) (h : a.param.ctype ≠ .allgatherv) : a.attr.isVectorBuf = false := by
  have huser := a.validateUserInput
  unfold OneCcl.validateUserInput at huser
  simp only [Bool.and_eq_true, beq_eq_false_iff_ne.mpr h, Bool.false_or, Bool.not_eq_true'] at huser
  exact huser.1.2

end

/-- **Full keys.** A call agrees with every call of its key in what a cached schedule keeps exactly when its collective has
one buffer. -/
theorem schedKey_agree_iff {proc : Process} (a : CollCall proc) :
    (∀ b : CollCall proc, set a.param a.attr = set b.param b.attr →
        Agree proc a.param b.param a.attr b.attr) ↔ a.param.ctype.OneBuffer := by
  constructor
  · intro h
    by_contra ht
    obtain ⟨sendBuf, recvBuf, hbufs⟩ := exists_bufs a ht (!a.param.bufsCoincide proc)
    have := (h (a.withBufs ht sendBuf recvBuf) rfl).bufsCoincide
    exact Bool.not_not_eq.mpr rfl (this.trans hbufs).symm
  · intro ht b h
    have hctype : a.param.ctype = b.param.ctype := by simpa using congrArg SchedKey.ctype h
    have hne : a.param.ctype ≠ .allgatherv := by
      intro hc
      rw [hc] at ht
      exact absurd ht (by decide)
    refine agree_of_key h ?_ ?_
    · rw [bufsCoincide_of_oneBuffer ht, bufsCoincide_of_oneBuffer (hctype ▸ ht)]
    · rw [a.isVectorBuf_eq_false hne, b.isVectorBuf_eq_false (hctype ▸ hne)]

def twoRanks : Process where
  ofi := true
  isPredefined := fun _ => true
  dtypeSize := fun _ => 4
  size := fun _ => 2
  rank := fun _ => 0
  rank_lt := fun _ => by decide

theorem twoRanks_dtypeSize_pos (dtype : Nat) (_ : twoRanks.isPredefined dtype = true) : 0 < twoRanks.dtypeSize dtype :=
  Nat.succ_pos _

/-- An `allreduce` of ten elements from the buffer at 4096. -/
def allreduceInto (recvBuf : Nat) : CollCall twoRanks where
  param := createAllreduceParam 4096 recvBuf 10 7 1 0
  attr := { matchId := ['g'] }
  created := .allreduce _ _ _ _ _ _
  validate := rfl
  validateUserInput := rfl
  sendCounts_lt := fun c hc => by
    rw [mem_singleton.mp hc]
    decide
  recvCounts_lt := fun c hc => by
    rw [mem_singleton.mp hc]
    decide
  fits := nofun

/-- In place and out of place, it has one key. -/
theorem schedKey_inplace_outOfPlace : set (allreduceInto 4096).param (allreduceInto 4096).attr =
      set (allreduceInto 8192).param (allreduceInto 8192).attr ∧
    (allreduceInto 4096).param.bufsCoincide twoRanks = true ∧ (allreduceInto 8192).param.bufsCoincide twoRanks = false := by
  decide

/-! ## The check of a found key -/

/-- `get_send_count` and `get_recv_count` throw where there is no count: whether the one that `ctype` asks for is there. -/
def CollParam.counted (param : CollParam) : CollType → Bool
  | .alltoallv | .barrier => true
  | .recv => !param.recvCounts.isEmpty
  | _ => !param.sendCounts.isEmpty

namespace SchedKey

def set? (param : CollParam) (attr : CollAttr) : Option SchedKey :=
  if param.counted param.ctype then some (set param attr) else none

/-- The `switch` of `ccl_sched_key::check`. -/
def checkOwn (key : SchedKey) (param : CollParam) : Bool :=
  match key.ctype with
  | .allgather | .alltoall => param.getSendCount == key.count1
  | .allgatherv => param.getSendCount == key.count1 && param.recvCounts == key.vec1
  | .allreduce | .reduceScatter => param.getSendCount == key.count1 && param.reduction == key.reduction
  | .alltoallv => param.sendCounts == key.vec1 && param.recvCounts == key.vec2
  | .barrier => true
  | .bcast | .broadcast => param.getSendCount == key.count1 && param.root == key.root
  | .reduce => param.getSendCount == key.count1 && param.reduction == key.reduction && param.root == key.root
  | .recv => param.getRecvCount == key.count1 && param.peerRank == key.peerRank && param.groupId == key.groupId
  | .send => param.getSendCount == key.count1 && param.peerRank == key.peerRank && param.groupId == key.groupId

/-- `ccl_sched_key::check`; the four comparisons it starts with are alternatives. -/
def check (key : SchedKey) (param : CollParam) (attr : CollAttr) : Option Bool :=
  if param.counted key.ctype then
    some ((attr.reductionFn == key.reductionFn || param.ctype == key.ctype || param.dtype == key.dtype ||
      param.comm == key.comm) && key.checkOwn param)
  else none

/-- The fields of a key, without the match id. -/
def fields (key : SchedKey) : SchedKey := { key with matchId := [] }

variable {param param' : CollParam} {attr attr' : CollAttr} {key : SchedKey}

theorem fields_set_iff : (set param' attr').fields = (set param attr).fields ↔
    (attr'.reductionFn = attr.reductionFn ∧ param'.ctype = param.ctype ∧ param'.dtype = param.dtype ∧
      param'.comm = param.comm) ∧ (set param attr).checkOwn param' = true := by
  by_cases hc : param'.ctype = param.ctype
  · cases h : param.ctype <;> simp [set, fields, checkOwn, h, hc.trans h] <;> tauto
  · have hne : (set param' attr').fields ≠ (set param attr).fields := fun h => hc (by simpa [fields] using congrArg ctype h)
    simp [hne, hc]

/-- **The check of a found schedule.** It accepts a call exactly when the key of that call has the fields of the key at
hand, unless the collective's own fields agree and of reduction function, collective, datatype and communicator some do
and others do not. -/
theorem schedKey_check_iff (hkey : set? param attr = some key) (param' : CollParam) (attr' : CollAttr) :
    (key.check param' attr' = some true ↔ (set? param' attr').map fields = some key.fields) ↔
      (param'.counted param.ctype → key.checkOwn param' = true →
        attr'.reductionFn = attr.reductionFn ∨ param'.ctype = param.ctype ∨ param'.dtype = param.dtype ∨
          param'.comm = param.comm →
        attr'.reductionFn = attr.reductionFn ∧ param'.ctype = param.ctype ∧ param'.dtype = param.dtype ∧
          param'.comm = param.comm) := by
  obtain ⟨hcounted, rfl⟩ : param.counted param.ctype ∧ set param attr = key := by simpa [set?] using hkey
  have hcheck : (set param attr).check param' attr' = some true ↔ param'.counted param.ctype ∧
      (attr'.reductionFn = attr.reductionFn ∨ param'.ctype = param.ctype ∨ param'.dtype = param.dtype ∨
        param'.comm = param.comm) ∧ (set param attr).checkOwn param' = true := by
    simp [check, or_assoc]
  have hset : (set? param' attr').map fields = some (set param attr).fields ↔ param'.counted param'.ctype ∧
      (attr'.reductionFn = attr.reductionFn ∧ param'.ctype = param.ctype ∧ param'.dtype = param.dtype ∧
        param'.comm = param.comm) ∧ (set param attr).checkOwn param' = true := by
    rw [← fields_set_iff]
    simp [set?]
  rw [hcheck, hset]
  constructor
  · exact fun h hcnt hown hsome => (h.mp ⟨hcnt, hsome, hown⟩).2.1
  · intro h
    constructor
    · rintro ⟨hcnt, hsome, hown⟩
      have hall := h hcnt hown hsome
      exact ⟨hall.2.1 ▸ hcnt, hall, hown⟩
    · rintro ⟨hcnt, hall, hown⟩
      exact ⟨hall.2.1 ▸ hcnt, .inl hall.1, hown⟩

/-- A key of ten elements of datatype 7, and the same call with datatype 8. -/
theorem schedKey_check_other_dtype :
    (set? (createAllreduceParam 4096 4096 10 7 1 0) {}).bind (·.check (createAllreduceParam 4096 4096 10 8 1 0) {}) =
      some true ∧
    (set? (createAllreduceParam 4096 4096 10 7 1 0) {}).map fields ≠
      (set? (createAllreduceParam 4096 4096 10 8 1 0) {}).map fields := by
  decide

/-- Two allreduces that differ in their buffers only: the check passes as the data of the keys agree. -/
theorem schedKey_check_same_call : (set (createAllreduceParam 4096 4096 10 7 1 0) {}).check
      (createAllreduceParam 8192 8192 10 7 1 0) {} = some true ↔
    (set? (createAllreduceParam 8192 8192 10 7 1 0) {}).map fields =
      some (set (createAllreduceParam 4096 4096 10 7 1 0) {}).fields :=
  (schedKey_check_iff rfl _ _).mpr fun _ _ _ => ⟨rfl, rfl, rfl, rfl⟩

end SchedKey

end OneCcl
