import OneCcl.Fusion.Manager
import Mathlib.Algebra.BigOperators.Ring.List
import Mathlib.Algebra.Order.BigOperators.Group.List
import Mathlib.Algebra.Order.Ring.Nat
import Mathlib.Data.List.Nodup

/-!
# Keys of fused schedules

When all schedules of a batch are cached, so is the fused schedule, under a key that `build_sched` makes of the sum of the
counts, their number, and the match ids of the first and of the last schedule, one behind the other. The rest of the batch
is not in the key, nor is the place where the one match id ends, and with `cache_key_type = match_id`, the default, nor are
the numbers.

`fusedKey_fixes_iff` says which batches are told from all others by their keys: next to none.
-/

namespace OneCcl

open List UserSched SchedKey

variable {proc : Process} {m : FusionManager proc} {type : CacheKeyType}

/-- A batch of cached schedules. -/
structure CachedBatch (m : FusionManager proc) (type : CacheKeyType) where
  scheds : List (UserSched proc)
  batch : m.Batch type scheds
  toCache : ∀ s ∈ scheds, s.toCache = true

namespace CachedBatch

variable (b : CachedBatch m type)

def firstSched : UserSched proc := b.scheds.head b.batch.ne

def lastSched : UserSched proc := b.scheds.getLast b.batch.ne

def sumCount : Nat := (b.scheds.map count).sum

/-- The key that `build_sched` looks the fused schedule up with. -/
def key : SchedKey :=
  { ctype := b.firstSched.call.param.ctype, count1 := b.sumCount, count2 := b.scheds.length,
    dtype := b.firstSched.call.param.dtype, reduction := b.firstSched.call.param.reduction,
    comm := b.firstSched.call.param.comm, reductionFn := 0, matchId := b.firstSched.matchId ++ b.lastSched.matchId }

/-- Both batches are of the same schedules, in one order. -/
def SameScheds (b' : CachedBatch m type) : Prop := List.Forall₂ (fun s t => s.SameSched type t) b.scheds b'.scheds

/-- The schedules are from one cache: one key, one schedule. A schedule keeps all but the buffers and the stream. -/
def OneCache (b' : CachedBatch m type) : Prop :=
  ∀ s ∈ b.scheds, ∀ t ∈ b'.scheds, s.SameSched type t → s.count = t.count ∧ s.coll = t.coll

/-- One schedule; or two with match ids of one letter and one count that cannot be divided in another way. When only match
ids are compared: one schedule with a match id of one letter, or two where there are never more. -/
def KeyFixes : Prop :=
  match type with
  | .full => b.scheds.length = 1 ∨ ∃ s t, b.scheds = [s, t] ∧ s.matchId.length = 1 ∧ t.matchId.length = 1 ∧
      s.count = t.count ∧ (s.count = 0 ∨ m.bytesThreshold ≤ (s.count + 1) * proc.dtypeSize s.call.param.dtype)
  | .matchId => (∃ s, b.scheds = [s] ∧ s.matchId.length = 1) ∨
      ∃ s t, b.scheds = [s, t] ∧ s.matchId.length = 1 ∧ t.matchId.length = 1 ∧ m.countThreshold = 2

end CachedBatch

/-! ## Which schedules are the same -/

/-- What tells the schedules of one collective apart. -/
def UserSched.ident (type : CacheKeyType) (s : UserSched proc) : Nat × List Char :=
  match type with
  | .full => (s.count, s.matchId)
  | .matchId => (0, s.matchId)

namespace FusionManager

variable {s t : UserSched proc}

theorem canFuse_iff : m.canFuse s = true ↔ m.enableHmem = false ∧ s.call.param.ctype = .allreduce ∧
    s.bytes < m.bytesThreshold ∧ s.deps = 0 ∧ s.call.attr.reductionFn = 0 ∧ s.synchronous = false := by
  simp [canFuse, and_assoc]

theorem key_of_canFuse (h : m.canFuse s = true) : s.key =
    { ctype := s.coll.2.2.1, dtype := s.coll.1, comm := s.coll.2.1, reduction := s.coll.2.2.2, count1 := s.count,
      reductionFn := 0, matchId := s.matchId } := by
  obtain ⟨-, ht, -, -, hfn, -⟩ := canFuse_iff.mp h
  simp only [UserSched.key, SchedKey.set, ht, hfn, UserSched.coll, UserSched.count, UserSched.matchId]

theorem sameSched_iff (hs : m.canFuse s = true) (ht : m.canFuse t = true) (hsc : s.toCache = true) (htc : t.toCache = true)
    (hcoll : type = .full → s.coll = t.coll) : s.SameSched type t ↔ s.ident type = t.ident type := by
  simp only [UserSched.SameSched, hsc, htc, true_and]
  cases type with
  | full =>
    rw [same_full, key_of_canFuse hs, key_of_canFuse ht, hcoll rfl]
    simp [ident]
  | matchId =>
    rw [same_matchId, key_of_canFuse hs, key_of_canFuse ht]
    simp [ident]

end FusionManager

theorem forall₂_iff_map_eq {α β : Type*} {R : α → α → Prop} {f : α → β} {l l' : List α}
    (h : ∀ s ∈ l, ∀ t ∈ l', R s t ↔ f s = f t) : List.Forall₂ R l l' ↔ l.map f = l'.map f := by
  induction l generalizing l' with
  | nil => cases l' <;> simp
  | cons s l ih =>
    cases l' with
    | nil => simp
    | cons t l' =>
      have htail := @ih l' fun s hs t ht => h s (mem_cons_of_mem _ hs) t (mem_cons_of_mem _ ht)
      rw [forall₂_cons, h s mem_cons_self t mem_cons_self, htail, map_cons, map_cons,
        cons.injEq]

namespace CachedBatch

open FusionManager

variable {b b' : CachedBatch m type} {s t : UserSched proc}

theorem firstSched_mem : b.firstSched ∈ b.scheds := head_mem _

theorem coll_eq (hs : s ∈ b.scheds) : s.coll = b.firstSched.coll :=
  congrArg Prod.fst (b.batch.kind s hs _ firstSched_mem)

theorem matchId_ne (hs : s ∈ b.scheds) : s.matchId ≠ [] := s.matchId_ne (b.toCache s hs)

theorem nodup_ident (b : CachedBatch m type) : (b.scheds.map (ident type)).Nodup := by
  rw [List.Nodup, pairwise_map]
  refine b.batch.distinct.imp_of_mem ?_
  intro s t hs ht hne heq
  refine hne ((sameSched_iff (b.batch.canFuse s hs) (b.batch.canFuse t ht) (b.toCache s hs) (b.toCache t ht) ?_).mpr heq)
  exact fun _ => (coll_eq hs).trans (coll_eq ht).symm

theorem sameScheds_iff (hcoll : type = .full → b.firstSched.coll = b'.firstSched.coll) :
    b.SameScheds b' ↔ b.scheds.map (ident type) = b'.scheds.map (ident type) := by
  refine forall₂_iff_map_eq fun s hs t ht => ?_
  refine sameSched_iff (b.batch.canFuse s hs) (b'.batch.canFuse t ht) (b.toCache s hs) (b'.toCache t ht) ?_
  intro h
  rw [coll_eq hs, coll_eq ht, hcoll h]

theorem key_same_iff : b.key.same type b'.key = true ↔
    (type = .full → b.firstSched.coll = b'.firstSched.coll ∧ b.sumCount = b'.sumCount ∧
      b.scheds.length = b'.scheds.length) ∧
    b.firstSched.matchId ++ b.lastSched.matchId = b'.firstSched.matchId ++ b'.lastSched.matchId := by
  cases type with
  | full =>
    rw [SchedKey.same_full]
    simp only [key, SchedKey.mk.injEq, coll, Prod.mk.injEq, true_and, forall_const]
    tauto
  | matchId =>
    rw [SchedKey.same_matchId]
    simp [key]

/-! ## Batches that have their key for themselves -/

theorem eq_of_append_length_one {s t s' t' : List Char} (h : s ++ t = s' ++ t') (hs : s.length = 1) (ht : t.length = 1)
    (hs' : s' ≠ []) (ht' : t' ≠ []) : s = s' ∧ t = t' := by
  have hlen := congrArg length h
  simp only [length_append] at hlen
  have hpos := length_pos_iff.mpr hs'
  have hpos' := length_pos_iff.mpr ht'
  exact append_inj h (by omega)

theorem eq_of_append_self {s t : List Char} (h : s ++ s = t ++ t) : s = t := by
  have hlen := congrArg length h
  simp only [length_append] at hlen
  exact (append_inj h (by omega)).1

theorem head?_scheds : b.scheds.head? = some b.firstSched := head?_eq_some_head _

theorem getLast?_scheds : b.scheds.getLast? = some b.lastSched := getLast?_eq_some_getLast _

theorem ends_singleton (h : b.scheds = [s]) : b.firstSched = s ∧ b.lastSched = s := by
  have hfirst := b.head?_scheds
  have hlast := b.getLast?_scheds
  rw [h] at hfirst hlast
  exact ⟨(Option.some.inj hfirst).symm, (Option.some.inj hlast).symm⟩

theorem ends_pair (h : b.scheds = [s, t]) : b.firstSched = s ∧ b.lastSched = t := by
  have hfirst := b.head?_scheds
  have hlast := b.getLast?_scheds
  rw [h] at hfirst hlast
  exact ⟨(Option.some.inj hfirst).symm, (Option.some.inj hlast).symm⟩

theorem lastSched_mem : b.lastSched ∈ b.scheds := getLast_mem _

theorem eq_singleton_of_ends (h : b.firstSched.ident type = b.lastSched.ident type) : b.scheds = [b.firstSched] := by
  have hnodup := b.nodup_ident
  have hfirst := b.head?_scheds
  have hlast := b.getLast?_scheds
  cases hl : b.scheds with
  | nil => exact absurd hl b.batch.ne
  | cons s rest =>
    rw [hl] at hnodup hfirst hlast
    cases hfirst
    cases hr : rest with
    | nil => rfl
    | cons t rest' =>
      have hmem : b.lastSched ∈ rest := by
        rw [hr, getLast?_cons_cons] at hlast
        exact hr ▸ mem_of_getLast? hlast
      rw [map_cons, nodup_cons] at hnodup
      exact absurd (mem_map.mpr ⟨_, hmem, h.symm⟩) hnodup.1

theorem count_lt (hs : s ∈ b.scheds) {size : Nat} (hsize : proc.dtypeSize s.call.param.dtype = size) {count : Nat}
    (hcount : m.bytesThreshold ≤ count * size) : s.count < count := by
  have hlt := bytes_lt (b.batch.canFuse s hs)
  rw [bytes, hsize] at hlt
  exact Nat.lt_of_mul_lt_mul_right (hlt.trans_le hcount)

theorem sameScheds_of_key_full {b b' : CachedBatch m .full} (hfix : b.KeyFixes) (hkey : b.key.same .full b'.key = true) :
    b.SameScheds b' := by
  obtain ⟨hfields, hid⟩ := key_same_iff.mp hkey
  obtain ⟨hcoll, hsum, hlen⟩ := hfields rfl
  rw [sameScheds_iff fun _ => hcoll]
  rcases hfix with hone | ⟨s, t, hl, hs, ht, hcount, hroom⟩
  · obtain ⟨s, hl⟩ := length_eq_one_iff.mp hone
    obtain ⟨s', hl'⟩ := length_eq_one_iff.mp (hlen ▸ hone)
    obtain ⟨hf, hlast⟩ := ends_singleton hl
    obtain ⟨hf', hlast'⟩ := ends_singleton hl'
    rw [hf, hlast, hf', hlast'] at hid
    have hcount : s.count = s'.count := by simpa [sumCount, hl, hl'] using hsum
    simp [hl, hl', ident, hcount, eq_of_append_self hid]
  · obtain ⟨s', t', hl'⟩ := length_eq_two.mp (hlen.symm.trans (congrArg length hl))
    have hmem : s' ∈ b'.scheds := hl' ▸ mem_cons_self
    have hmem' : t' ∈ b'.scheds := hl' ▸ mem_cons_of_mem _ mem_cons_self
    obtain ⟨hf, hlast⟩ := ends_pair hl
    obtain ⟨hf', hlast'⟩ := ends_pair hl'
    rw [hf, hlast, hf', hlast'] at hid
    obtain ⟨hids, hidt⟩ := eq_of_append_length_one hid hs ht (matchId_ne hmem) (matchId_ne hmem')
    have hsum : s.count + t.count = s'.count + t'.count := by simpa [sumCount, hl, hl'] using hsum
    have hcounts : s'.count = s.count ∧ t'.count = t.count := by
      rcases hroom with hzero | hroom
      · omega
      · -- neither of the counts can be more than the half of the sum
        have hdtype : ∀ u ∈ b'.scheds, proc.dtypeSize u.call.param.dtype = proc.dtypeSize s.call.param.dtype := by
          intro u hu
          have hu : u.coll = s.coll := (coll_eq hu).trans (hcoll.symm.trans (congrArg coll hf))
          exact congrArg proc.dtypeSize (congrArg Prod.fst hu)
        have hs' := count_lt hmem (hdtype _ hmem) hroom
        have ht' := count_lt hmem' (hdtype _ hmem') hroom
        omega
    simp [hl, hl', ident, hcounts, hids, hidt]

theorem sameScheds_of_key_matchId {b b' : CachedBatch m .matchId} (hfix : b.KeyFixes)
    (hkey : b.key.same .matchId b'.key = true) : b.SameScheds b' := by
  obtain ⟨-, hid⟩ := key_same_iff.mp hkey
  have hne := matchId_ne b'.firstSched_mem
  have hne' := matchId_ne b'.lastSched_mem
  have hcoll : CacheKeyType.matchId = .full → b.firstSched.coll = b'.firstSched.coll := nofun
  rw [sameScheds_iff hcoll]
  rcases hfix with ⟨s, hl, hs⟩ | ⟨s, t, hl, hs, ht, hcount⟩
  · obtain ⟨hf, hlast⟩ := ends_singleton hl
    rw [hf, hlast] at hid
    obtain ⟨hfirst, hlast'⟩ := eq_of_append_length_one hid hs hs hne hne'
    have hends : b'.firstSched.ident .matchId = b'.lastSched.ident .matchId := by
      simp [ident, ← hfirst, ← hlast']
    rw [hl, eq_singleton_of_ends hends]
    simp [ident, hfirst]
  · obtain ⟨hf, hlast⟩ := ends_pair hl
    rw [hf, hlast] at hid
    obtain ⟨hfirst, hlast'⟩ := eq_of_append_length_one hid hs ht hne hne'
    have hnodup := b.nodup_ident
    rw [hl] at hnodup
    have hst : s.matchId ≠ t.matchId := by simpa [ident] using hnodup
    have hlen := b'.batch.length_le (by omega)
    match hl' : b'.scheds with
    | [] => exact absurd hl' b'.batch.ne
    | [u] =>
      obtain ⟨hu, hu'⟩ := ends_singleton hl'
      rw [hu] at hfirst
      rw [hu'] at hlast'
      exact absurd (hfirst.trans hlast'.symm) hst
    | [u, v] =>
      obtain ⟨hu, hv⟩ := ends_pair hl'
      rw [hu] at hfirst
      rw [hv] at hlast'
      simp [hl, ident, hfirst, hlast']
    | _ :: _ :: _ :: _ =>
      rw [hl'] at hlen
      simp only [length_cons] at hlen
      omega

end CachedBatch

/-! ## Other batches with the same key -/

/-- The same `allreduce` with another count and another match id. -/
def CollCall.relabel (a : CollCall proc) (ht : a.param.ctype = .allreduce) (count : Nat) (hcount : count < 2 ^ 64)
    (id : List Char) : CollCall proc where
  param := { a.param with count, sendCounts := [count], recvCounts := [count] }
  attr := { a.attr with matchId := id }
  created := by
    obtain ⟨param, attr, created, _, _, _, _, _⟩ := a
    cases created with
    | allreduce => exact .allreduce _ _ _ _ _ _
    | _ => cases ht
  validate := by
    obtain ⟨param, attr, created, hvalid, _, _, _, _⟩ := a
    cases created with
    | allreduce sendBuf recvBuf count' dtype comm reduction =>
      simpa [CollParam.validate, createAllreduceParam] using hvalid
    | _ => cases ht
  validateUserInput := a.validateUserInput
  sendCounts_lt := fun c hc => mem_singleton.mp hc ▸ hcount
  recvCounts_lt := fun c hc => mem_singleton.mp hc ▸ hcount
  fits := fun h => absurd (ht.symm.trans h) nofun

namespace CachedBatch

open FusionManager

variable (b : CachedBatch m type)

def dtypeSize : Nat := proc.dtypeSize b.firstSched.call.param.dtype

theorem dtypeSize_pos : 0 < b.dtypeSize := by
  obtain ⟨-, ht, -, -, hfn, -⟩ := canFuse_iff.mp (b.batch.canFuse _ b.firstSched_mem)
  have huser := b.firstSched.call.validateUserInput
  simp only [validateUserInput, ht, hfn, Bool.and_eq_true] at huser
  exact m.dtypeSize_pos _ (by simpa using huser.1.1.1.2)

variable {count : Nat} {id id' : List Char}

theorem count_lt_size (hcount : count * b.dtypeSize < m.bytesThreshold) : count < 2 ^ 64 :=
  calc count ≤ count * b.dtypeSize := Nat.le_mul_of_pos_right _ b.dtypeSize_pos
    _ < m.bytesThreshold := hcount
    _ ≤ m.bytesThreshold * m.countThreshold := Nat.le_mul_of_pos_right _ m.countThreshold_pos
    _ < 2 ^ 64 := m.bufferSize_lt

/-- A schedule that can stand beside those of the batch. -/
def op (count : Nat) (hcount : count * b.dtypeSize < m.bytesThreshold) (id : List Char) (hid : id ≠ []) : UserSched proc where
  call := b.firstSched.call.relabel (canFuse_iff.mp (b.batch.canFuse _ b.firstSched_mem)).2.1 count (b.count_lt_size hcount) id
  stream := b.firstSched.stream
  toCache := true
  matchId_ne := fun _ => hid

/-- The schedule is of the kind of the batch. -/
structure Fits (s : UserSched proc) : Prop where
  canFuse : m.canFuse s = true
  kind : s.kind = b.firstSched.kind
  toCache : s.toCache = true

variable {b} {s t : UserSched proc} {l : List (UserSched proc)}

theorem fits_of_mem (hs : s ∈ b.scheds) : b.Fits s :=
  ⟨b.batch.canFuse s hs, b.batch.kind s hs _ b.firstSched_mem, b.toCache s hs⟩

theorem fits_op {hcount : count * b.dtypeSize < m.bytesThreshold} {hid : id ≠ []} : b.Fits (b.op count hcount id hid) := by
  obtain ⟨hmem, ht, -, -, hfn, -⟩ := canFuse_iff.mp (b.batch.canFuse _ b.firstSched_mem)
  exact ⟨canFuse_iff.mpr ⟨hmem, ht, hcount, rfl, hfn, rfl⟩, rfl, rfl⟩

theorem Fits.dtype (h : b.Fits s) : s.call.param.dtype = b.firstSched.call.param.dtype :=
  congrArg (fun kind => kind.1.1) h.kind

theorem Fits.count_mul_lt (h : b.Fits s) : s.count * b.dtypeSize < m.bytesThreshold := by
  have hlt := bytes_lt h.canFuse
  rwa [bytes, h.dtype] at hlt

theorem sum_bytes (h : ∀ s ∈ l, b.Fits s) : (l.map UserSched.bytes).sum = (l.map UserSched.count).sum * b.dtypeSize := by
  rw [← sum_map_mul_right]
  congr 1
  refine map_congr_left fun s hs => ?_
  rw [UserSched.bytes, (h s hs).dtype]
  rfl

/-- Another batch of the same kind, with not more data. -/
def other (b : CachedBatch m type) (l : List (UserSched proc)) (hne : l ≠ []) (hfits : ∀ s ∈ l, b.Fits s)
    (hnodup : (l.map (UserSched.ident type)).Nodup) (hlen : m.countThreshold ≠ 1 → l.length ≤ m.countThreshold)
    (hsum : (l.map UserSched.count).sum ≤ b.sumCount) : CachedBatch m type where
  scheds := l
  toCache := fun s hs => (hfits s hs).toCache
  batch :=
    { ne := hne
      canFuse := fun s hs => (hfits s hs).canFuse
      kind := fun s hs t ht => (hfits s hs).kind.trans (hfits t ht).kind.symm
      distinct := by
        rw [List.Nodup, pairwise_map] at hnodup
        refine hnodup.imp_of_mem ?_
        intro s t hs ht hne hsame
        refine hne ((sameSched_iff (hfits s hs).canFuse (hfits t ht).canFuse (hfits s hs).toCache (hfits t ht).toCache
          fun _ => ?_).mp hsame)
        exact congrArg Prod.fst ((hfits s hs).kind.trans (hfits t ht).kind.symm)
      length_le := hlen
      bytes_le := by
        have hbytes := b.batch.bytes_le
        rw [sum_bytes fun s hs => fits_of_mem hs] at hbytes
        rw [sum_bytes hfits]
        exact (Nat.mul_le_mul_right _ hsum).trans hbytes }

/-- The key of the batch is that of no other batch in the cache. -/
def KeyOwn (b : CachedBatch m type) : Prop :=
  ∀ b' : CachedBatch m type, b.OneCache b' → b.key.same type b'.key = true → b.SameScheds b'

theorem KeyOwn.ident_eq (h : b.KeyOwn) (l : List (UserSched proc)) (hne : l ≠ []) (hfits : ∀ s ∈ l, b.Fits s)
    (hnodup : (l.map (UserSched.ident type)).Nodup) (hlen : m.countThreshold ≠ 1 → l.length ≤ m.countThreshold)
    (hsum : (l.map UserSched.count).sum ≤ b.sumCount)
    (hfull : type = .full → b.sumCount = (l.map UserSched.count).sum ∧ b.scheds.length = l.length)
    (hcache : type = .matchId → ∀ s ∈ b.scheds, ∀ t ∈ l, s.matchId = t.matchId → s.count = t.count)
    (hid : b.firstSched.matchId ++ b.lastSched.matchId = (l.head hne).matchId ++ (l.getLast hne).matchId) :
    b.scheds.map (UserSched.ident type) = l.map (UserSched.ident type) := by
  have hcoll : ∀ s ∈ b.scheds, ∀ t ∈ l, s.coll = t.coll := by
    intro s hs t ht
    exact congrArg Prod.fst ((fits_of_mem hs).kind.trans (hfits t ht).kind.symm)
  have hfirst := hcoll _ b.firstSched_mem _ (head_mem hne)
  refine (sameScheds_iff fun _ => hfirst).mp (h (b.other l hne hfits hnodup hlen hsum) ?_ ?_)
  · intro s hs t ht hsame
    refine ⟨?_, hcoll s hs t ht⟩
    have hident := (sameSched_iff (b.batch.canFuse s hs) (hfits t ht).canFuse (b.toCache s hs) (hfits t ht).toCache
      fun _ => hcoll s hs t ht).mp hsame
    cases type with
    | full => exact congrArg Prod.fst hident
    | matchId => exact hcache rfl s hs t ht (congrArg Prod.snd hident)
  · exact key_same_iff.mpr ⟨fun hf => ⟨hfirst, hfull hf⟩, hid⟩

/-- A match id that no schedule of the batch has. -/
def fresh (b : CachedBatch m type) : List Char :=
  replicate ((b.scheds.map fun s => s.matchId.length).sum + 1) 'x'

theorem fresh_ne : b.fresh ≠ [] := by simp [fresh]

theorem matchId_ne_fresh (hs : s ∈ b.scheds) : s.matchId ≠ b.fresh := by
  have hle : s.matchId.length ≤ (b.scheds.map fun s => s.matchId.length).sum :=
    le_sum_of_mem (mem_map_of_mem hs)
  intro h
  have hlen := congrArg length h
  rw [fresh, length_replicate] at hlen
  omega

theorem ident_ne (h : s.matchId ≠ t.matchId) : s.ident type ≠ t.ident type := by
  cases type <;> simp [ident, h]

theorem count_of_matchId {b : CachedBatch m type} (htype : type = .matchId) (hs : s ∈ b.scheds)
    (ht : t ∈ b.scheds) (h : s.matchId = t.matchId) : s.count = t.count := by
  subst htype
  have hident : s.ident .matchId = t.ident .matchId := by simp [ident, h]
  rw [inj_on_of_nodup_map b.nodup_ident hs ht hident]

theorem KeyOwn.length_le_two (h : b.KeyOwn) : b.scheds.length ≤ 2 := by
  match hl : b.scheds with
  | [] | [_] | [_, _] => simp
  | s :: u :: v :: rest =>
    have hs : s ∈ b.scheds := hl ▸ mem_cons_self
    have hu : u ∈ b.scheds := hl ▸ mem_cons_of_mem _ mem_cons_self
    have hrest : ∀ t ∈ v :: rest, t ∈ b.scheds := by
      intro t ht
      exact hl ▸ mem_cons_of_mem _ (mem_cons_of_mem _ ht)
    -- the second schedule gets a match id that is not there
    let u' := b.op u.count (fits_of_mem hu).count_mul_lt b.fresh fresh_ne
    have hfresh : ∀ t ∈ b.scheds, t.ident type ≠ u'.ident type := fun t ht => ident_ne (matchId_ne_fresh ht)
    have hmem : ∀ t ∈ s :: u' :: v :: rest, t = u' ∨ t ∈ b.scheds := by
      intro t ht
      rcases mem_cons.mp ht with rfl | ht
      · exact .inr hs
      · exact (mem_cons.mp ht).imp_right (hrest t)
    have hcounts : b.scheds.map UserSched.count = (s :: u' :: v :: rest).map UserSched.count := by
      rw [hl]
      rfl
    have hident := h.ident_eq (s :: u' :: v :: rest) (cons_ne_nil _ _) ?_ ?_ ?_ ?_ ?_ ?_ ?_
    · rw [hl] at hident
      simp only [map_cons, cons.injEq] at hident
      exact absurd hident.2.1 (hfresh u hu)
    · intro t ht
      rcases hmem t ht with rfl | ht
      · exact fits_op
      · exact fits_of_mem ht
    · have hnodup := b.nodup_ident
      rw [hl, map_cons, map_cons, nodup_cons, nodup_cons, mem_cons, not_or] at hnodup
      rw [map_cons, map_cons, nodup_cons, nodup_cons, mem_cons, not_or]
      refine ⟨⟨hfresh s hs, hnodup.1.2⟩, ?_, hnodup.2.2⟩
      intro hu'
      obtain ⟨t, ht, heq⟩ := mem_map.mp hu'
      exact hfresh t (hrest t ht) heq
    · intro hct
      have hlen := b.batch.length_le hct
      rwa [hl] at hlen
    · rw [← hcounts]
      exact le_rfl
    · exact fun _ => ⟨congrArg sum hcounts, by rw [hl]; rfl⟩
    · intro htype t ht t' ht' heq
      rcases hmem t' ht' with rfl | ht'
      · exact absurd heq (matchId_ne_fresh ht)
      · exact count_of_matchId htype ht ht' heq
    · have hfirst := b.head?_scheds
      have hlast := b.getLast?_scheds
      rw [hl] at hfirst hlast
      rw [← Option.some.inj hfirst, ← Option.some.inj hlast]
      rfl

theorem KeyOwn.two_ops (h : b.KeyOwn) {c c' : Nat} (hc : c * b.dtypeSize < m.bytesThreshold)
    (hc' : c' * b.dtypeSize < m.bytesThreshold) (hid : id ≠ []) (hid' : id' ≠ [])
    (hne : (b.op c hc id hid).ident type ≠ (b.op c' hc' id' hid').ident type) (hsum : c + c' ≤ b.sumCount)
    (hfull : type = .full → b.sumCount = c + c' ∧ b.scheds.length = 2)
    (hcache : type = .matchId → ∀ s ∈ b.scheds, (s.matchId = id → s.count = c) ∧ (s.matchId = id' → s.count = c'))
    (hkey : b.firstSched.matchId ++ b.lastSched.matchId = id ++ id') :
    b.scheds.map (UserSched.ident type) = [(b.op c hc id hid).ident type, (b.op c' hc' id' hid').ident type] := by
  refine h.ident_eq [b.op c hc id hid, b.op c' hc' id' hid'] (cons_ne_nil _ _) ?_ ?_ ?_ hsum hfull ?_ hkey
  · intro s hs
    rcases mem_pair.mp hs with rfl | rfl
    · exact fits_op
    · exact fits_op
  · simpa using hne
  · intro hct
    have hpos := m.countThreshold_pos
    show 2 ≤ m.countThreshold
    omega
  · intro htype s hs t ht heq
    rcases mem_pair.mp ht with rfl | rfl
    · exact (hcache htype s hs).1 heq
    · exact (hcache htype s hs).2 heq

theorem exists_split {s t : List Char} (hs : s ≠ []) (ht : t ≠ []) (h : ¬(s.length = 1 ∧ t.length = 1)) :
    ∃ s' t' : List Char, s ++ t = s' ++ t' ∧ s' ≠ [] ∧ t' ≠ [] ∧ s'.length ≠ s.length ∧ s'.length ≠ t'.length := by
  have hspos := length_pos_iff.mpr hs
  have htpos := length_pos_iff.mpr ht
  have hcut : ∀ p, 0 < p → p < s.length + t.length → p ≠ s.length → 2 * p ≠ s.length + t.length →
      ∃ s' t' : List Char, s ++ t = s' ++ t' ∧ s' ≠ [] ∧ t' ≠ [] ∧ s'.length ≠ s.length ∧ s'.length ≠ t'.length := by
    intro p hpos hlt hps htwice
    have hlen : ((s ++ t).take p).length = p := by
      rw [length_take, length_append]
      omega
    have hlen' : ((s ++ t).drop p).length = s.length + t.length - p := by
      rw [length_drop, length_append]
    refine ⟨(s ++ t).take p, (s ++ t).drop p, (take_append_drop p _).symm, ?_, ?_, ?_, ?_⟩
    · rw [← length_pos_iff]
      omega
    · rw [← length_pos_iff]
      omega
    · omega
    · omega
  by_cases hone : s.length = 1
  · exact hcut t.length (by omega) (by omega) (by omega) (by omega)
  · exact hcut 1 (by omega) (by omega) (by omega) (by omega)

theorem mem_pair_of (hl : b.scheds = [s, t]) : s ∈ b.scheds ∧ t ∈ b.scheds :=
  ⟨hl ▸ mem_cons_self, hl ▸ mem_cons_of_mem _ mem_cons_self⟩

theorem KeyOwn.keyFixes_full {b : CachedBatch m .full} (h : b.KeyOwn) : b.KeyFixes := by
  have hlen := h.length_le_two
  match hl : b.scheds with
  | [] => exact absurd hl b.batch.ne
  | [s] => exact .inl (congrArg length hl)
  | s :: t :: u :: rest =>
    rw [hl] at hlen
    simp only [length_cons] at hlen
    omega
  | [s, t] =>
    obtain ⟨hs, ht⟩ := mem_pair_of hl
    obtain ⟨hfirst, hlast⟩ := ends_pair hl
    have hsum : b.sumCount = s.count + t.count := by simp [sumCount, hl]
    have htwo : b.scheds.length = 2 := congrArg length hl
    have hkey : b.firstSched.matchId ++ b.lastSched.matchId = s.matchId ++ t.matchId := by rw [hfirst, hlast]
    have hids : s.matchId.length = 1 ∧ t.matchId.length = 1 := by
      by_contra hids
      obtain ⟨s', t', hsplit, hs', ht', hne, hne'⟩ := exists_split (matchId_ne hs) (matchId_ne ht) hids
      have hident := h.two_ops (fits_of_mem hs).count_mul_lt (fits_of_mem ht).count_mul_lt hs' ht'
        (ident_ne fun heq => hne' (congrArg length heq)) hsum.symm.le (fun _ => ⟨hsum, htwo⟩) nofun
        (hkey.trans hsplit)
      rw [hl] at hident
      have hid : s.matchId = s' := congrArg Prod.snd (cons.inj hident).1
      exact hne (congrArg length hid.symm)
    have hcount : s.count = t.count := by
      by_contra hcount
      -- the counts change places
      have hident := h.two_ops (fits_of_mem ht).count_mul_lt (fits_of_mem hs).count_mul_lt (matchId_ne hs) (matchId_ne ht)
        (fun heq => hcount (congrArg Prod.fst heq).symm) (Nat.le_of_eq (by omega)) (fun _ => ⟨by omega, htwo⟩) nofun hkey
      rw [hl] at hident
      exact hcount (congrArg Prod.fst (cons.inj hident).1)
    refine .inr ⟨s, t, hl, hids.1, hids.2, hcount, ?_⟩
    by_contra hroom
    rw [not_or, Nat.not_le] at hroom
    obtain ⟨hpos, hroom⟩ := hroom
    have hmore : (s.count + 1) * b.dtypeSize < m.bytesThreshold := by
      rw [dtypeSize, ← (fits_of_mem hs).dtype]
      exact hroom
    have hless : (s.count - 1) * b.dtypeSize < m.bytesThreshold :=
      (Nat.mul_le_mul_right _ (by omega)).trans_lt hmore
    have hident := h.two_ops hless hmore (matchId_ne hs) (matchId_ne ht)
      (fun heq => by
        have hcounts : s.count - 1 = s.count + 1 := congrArg Prod.fst heq
        omega)
      (Nat.le_of_eq (by omega)) (fun _ => ⟨by omega, htwo⟩) nofun hkey
    rw [hl] at hident
    have hcounts : s.count = s.count - 1 := congrArg Prod.fst (cons.inj hident).1
    omega

/-- The count that goes with a match id, if a schedule of the two has it. -/
def countOf (s t : UserSched proc) (id : List Char) : Nat :=
  if s.matchId = id then s.count else if t.matchId = id then t.count else 0

theorem countOf_mul_lt (hl : b.scheds = [s, t]) (id : List Char) : countOf s t id * b.dtypeSize < m.bytesThreshold := by
  obtain ⟨hs, ht⟩ := mem_pair_of hl
  unfold countOf
  split
  · exact (fits_of_mem hs).count_mul_lt
  · split
    · exact (fits_of_mem ht).count_mul_lt
    · rw [Nat.zero_mul]
      exact m.bytesThreshold_pos

theorem countOf_add_le (h : id ≠ id') : countOf s t id + countOf s t id' ≤ s.count + t.count := by
  unfold countOf
  split
  · next hs =>
    rw [if_neg (hs ▸ h)]
    split <;> omega
  · split
    · next ht =>
      rw [if_neg (show t.matchId ≠ id' from ht ▸ h)]
      split <;> omega
    · split
      · omega
      · split <;> omega

theorem zero_mul_lt : 0 * b.dtypeSize < m.bytesThreshold := by
  rw [Nat.zero_mul]
  exact m.bytesThreshold_pos

theorem KeyOwn.length_matchId {b : CachedBatch m .matchId} (h : b.KeyOwn) (hl : b.scheds = [s]) : s.matchId.length = 1 := by
  have hs : s ∈ b.scheds := hl ▸ mem_cons_self
  obtain ⟨hfirst, hlast⟩ := ends_singleton hl
  by_contra hone
  obtain ⟨s', t', hsplit, hs', ht', hne, hne'⟩ := exists_split (matchId_ne hs) (matchId_ne hs) fun h => hone h.1
  have hlens := congrArg length hsplit
  rw [length_append, length_append] at hlens
  have hcache : ∀ u ∈ b.scheds, (u.matchId = s' → u.count = 0) ∧ (u.matchId = t' → u.count = 0) := by
    intro u hu
    rw [hl, mem_singleton] at hu
    subst hu
    constructor
    · intro heq
      exact absurd (congrArg length heq.symm) hne
    · intro heq
      have hlen := congrArg length heq
      omega
  have hident := h.two_ops zero_mul_lt zero_mul_lt hs' ht' (ident_ne fun heq => hne' (congrArg length heq))
    (Nat.zero_le _) nofun (fun _ => hcache) (by rw [hfirst, hlast, hsplit])
  rw [hl] at hident
  exact absurd (congrArg length hident) (by simp)

theorem KeyOwn.length_matchId_pair {b : CachedBatch m .matchId} (h : b.KeyOwn) (hl : b.scheds = [s, t]) :
    s.matchId.length = 1 ∧ t.matchId.length = 1 := by
  obtain ⟨hs, ht⟩ := mem_pair_of hl
  obtain ⟨hfirst, hlast⟩ := ends_pair hl
  have hsum : b.sumCount = s.count + t.count := by simp [sumCount, hl]
  have hnodup := b.nodup_ident
  rw [hl] at hnodup
  have hdiff : s.matchId ≠ t.matchId := by simpa [ident] using hnodup
  by_contra hids
  obtain ⟨s', t', hsplit, hs', ht', hne, hne'⟩ := exists_split (matchId_ne hs) (matchId_ne ht) hids
  have hst : s' ≠ t' := fun heq => hne' (congrArg length heq)
  have hcountOf : ∀ u ∈ b.scheds, ∀ id, u.matchId = id → u.count = countOf s t id := by
    intro u hu id hid
    rw [hl] at hu
    rcases mem_pair.mp hu with rfl | rfl
    · rw [countOf, if_pos hid]
    · rw [countOf, if_neg (hid ▸ hdiff), if_pos hid]
  have hident := h.two_ops (countOf_mul_lt hl s') (countOf_mul_lt hl t') hs' ht' (ident_ne hst)
    (hsum ▸ countOf_add_le hst) nofun (fun _ u hu => ⟨hcountOf u hu s', hcountOf u hu t'⟩)
    (by rw [hfirst, hlast, hsplit])
  rw [hl] at hident
  have hid : s.matchId = s' := congrArg Prod.snd (cons.inj hident).1
  exact hne (congrArg length hid.symm)

theorem KeyOwn.countThreshold_eq {b : CachedBatch m .matchId} (h : b.KeyOwn) (hl : b.scheds = [s, t]) :
    m.countThreshold = 2 := by
  obtain ⟨hs, ht⟩ := mem_pair_of hl
  obtain ⟨hfirst, hlast⟩ := ends_pair hl
  have hsum : b.sumCount = s.count + t.count := by simp [sumCount, hl]
  have hnodup := b.nodup_ident
  rw [hl] at hnodup
  let u := b.op 0 zero_mul_lt b.fresh fresh_ne
  have hfresh : ∀ t ∈ b.scheds, t.ident .matchId ≠ u.ident .matchId := fun t ht => ident_ne (matchId_ne_fresh ht)
  have hmem : ∀ v ∈ [s, u, t], v = u ∨ v ∈ b.scheds := by
    intro v hv
    simp only [mem_cons, not_mem_nil, or_false] at hv
    rcases hv with rfl | rfl | rfl
    · exact .inr hs
    · exact .inl rfl
    · exact .inr ht
  by_contra hcount
  have hident := h.ident_eq [s, u, t] (cons_ne_nil _ _) ?_ ?_ ?_ ?_ (by simp) ?_ ?_
  · rw [hl] at hident
    exact absurd (congrArg length hident) (by simp)
  · intro v hv
    rcases hmem v hv with rfl | hv
    · exact fits_op
    · exact fits_of_mem hv
  · have hsu := hfresh s hs
    have hut := (hfresh t ht).symm
    have hst : s.ident .matchId ≠ t.ident .matchId := by simpa using hnodup
    simp [hsu, hut, hst]
  · intro hct
    have htwo := b.batch.length_le hct
    rw [hl] at htwo
    show 3 ≤ m.countThreshold
    exact Nat.lt_of_le_of_ne htwo (Ne.symm hcount)
  · rw [hsum]
    show s.count + (0 + (t.count + 0)) ≤ s.count + t.count
    omega
  · intro _ v hv w hw heq
    rcases hmem w hw with rfl | hw
    · exact absurd heq (matchId_ne_fresh hv)
    · exact count_of_matchId rfl hv hw heq
  · rw [hfirst, hlast]
    rfl

theorem KeyOwn.keyFixes_matchId {b : CachedBatch m .matchId} (h : b.KeyOwn) : b.KeyFixes := by
  have hlen := h.length_le_two
  match hl : b.scheds with
  | [] => exact absurd hl b.batch.ne
  | [s] => exact .inl ⟨s, hl, h.length_matchId hl⟩
  | [s, t] =>
    obtain ⟨hs, ht⟩ := h.length_matchId_pair hl
    exact .inr ⟨s, t, hl, hs, ht, h.countThreshold_eq hl⟩
  | s :: t :: u :: rest =>
    rw [hl] at hlen
    simp only [length_cons] at hlen
    omega

end CachedBatch

/-- **Keys of fused schedules.** A batch is the only one with its key exactly when it is as `KeyFixes` says. -/
theorem fusedKey_fixes_iff (b : CachedBatch m type) :
    (∀ b' : CachedBatch m type, b.OneCache b' → b.key.same type b'.key = true → b.SameScheds b') ↔ b.KeyFixes := by
  cases type with
  | full => exact ⟨CachedBatch.KeyOwn.keyFixes_full, fun h b' _ hkey => CachedBatch.sameScheds_of_key_full h hkey⟩
  | matchId => exact ⟨CachedBatch.KeyOwn.keyFixes_matchId, fun h b' _ hkey => CachedBatch.sameScheds_of_key_matchId h hkey⟩

/-- The manager with its default thresholds. -/
def defaultManager : FusionManager twoRanks where
  bytesThreshold := 16384
  countThreshold := 256
  bytesThreshold_pos := by decide
  countThreshold_pos := by decide
  bufferSize_lt := by decide
  dtypeSize_pos := twoRanks_dtypeSize_pos

/-- A cached `allreduce` of ten elements. -/
def cachedAllreduce (id : Char) : UserSched twoRanks where
  call := (allreduceInto 8192).relabel rfl 10 (by decide) [id]
  stream := 0
  toCache := true
  matchId_ne := fun _ => cons_ne_nil _ _

theorem sameSched_cachedAllreduce {id id' : Char} (h : (cachedAllreduce id).SameSched type (cachedAllreduce id')) :
    id = id' := by
  have hid : [id] = [id'] := by
    cases type with
    | full => exact congrArg SchedKey.matchId (SchedKey.same_full.mp h.2.2)
    | matchId => exact same_matchId.mp h.2.2
  exact (cons.inj hid).1

/-- Some of them, each with a match id of its own. -/
def cachedAllreduces (type : CacheKeyType) (ids : List Char) (hne : ids ≠ []) (hnodup : ids.Nodup) (hlen : ids.length ≤ 256) :
    CachedBatch defaultManager type where
  scheds := ids.map cachedAllreduce
  toCache := fun s hs => by
    obtain ⟨id, -, rfl⟩ := mem_map.mp hs
    rfl
  batch :=
    { ne := by simpa using hne
      canFuse := fun s hs => by
        obtain ⟨id, -, rfl⟩ := mem_map.mp hs
        rfl
      kind := fun s hs t ht => by
        obtain ⟨id, -, rfl⟩ := mem_map.mp hs
        obtain ⟨id', -, rfl⟩ := mem_map.mp ht
        rfl
      distinct := by
        rw [pairwise_map]
        exact hnodup.imp fun hne h => hne (sameSched_cachedAllreduce h)
      length_le := fun _ => (length_map cachedAllreduce).trans_le hlen
      bytes_le := by
        have hbytes : ids.map (bytes ∘ cachedAllreduce) = ids.map fun _ => 40 := rfl
        rw [map_map, hbytes, map_const', sum_replicate]
        show ids.length * 40 ≤ 16384 * 256
        omega }

def threeCached (type : CacheKeyType) : CachedBatch defaultManager type :=
  cachedAllreduces type ['a', 'b', 'c'] nofun (by decide) (by decide)

def threeOthers (type : CacheKeyType) : CachedBatch defaultManager type :=
  cachedAllreduces type ['a', 'd', 'c'] nofun (by decide) (by decide)

theorem oneCache_three : (threeCached type).OneCache (threeOthers type) := by
  intro s hs t ht _
  obtain ⟨id, -, rfl⟩ := mem_map.mp hs
  obtain ⟨id', -, rfl⟩ := mem_map.mp ht
  exact ⟨rfl, rfl⟩

theorem not_sameScheds_three : ¬(threeCached type).SameScheds (threeOthers type) := by
  intro h
  rcases h with - | ⟨-, - | ⟨hmid, -⟩⟩
  cases sameSched_cachedAllreduce hmid

/-- With keys of both types, three cached calls have the key of three others. -/
theorem fusedKey_middle_differs : ((threeCached .matchId).OneCache (threeOthers .matchId) ∧
      (threeCached .matchId).key.same .matchId (threeOthers .matchId).key = true ∧
      ¬(threeCached .matchId).SameScheds (threeOthers .matchId)) ∧ (threeCached .full).OneCache (threeOthers .full) ∧
      (threeCached .full).key.same .full (threeOthers .full).key = true ∧
      ¬(threeCached .full).SameScheds (threeOthers .full) :=
  ⟨⟨oneCache_three, by decide, not_sameScheds_three⟩, oneCache_three, by decide, not_sameScheds_three⟩

end OneCcl
