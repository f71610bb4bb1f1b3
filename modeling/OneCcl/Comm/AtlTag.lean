import OneCcl.Comm.Comm

/-!
# Transport tags

A message carries a tag that `ccl_atl_tag_impl::create` packs from the sender's rank, the communicator, the schedule and
the sub-schedule (`op_id`). There are three layouts. Which one is used is settled once per transport, by
`atl_base_comm::init_tag`.
-/

namespace OneCcl

/-! ## Layouts -/

/-- The layouts of a tag: `common_tag_layout`, `ofi_cxi_tag_layout` and `mpi_tag_layout`. -/
inductive TagLayout where
  | common
  | ofiCxi
  | mpi
  deriving DecidableEq, Repr

namespace TagLayout

variable (layout : TagLayout)

/-- The parameter of `pt2pt_tag_layout`: how many bits the layout has for the schedule. -/
def schedIdBits : Nat :=
  match layout with
  | .common => 16
  | .ofiCxi => 12
  | .mpi => 12

def pt2ptSchedId : Nat := (1 <<< layout.schedIdBits) - 1

def pt2ptAckTag : Nat := layout.pt2ptSchedId - 1

def pt2ptAckFirst : Nat := layout.pt2ptSchedId - 2

def pt2ptAckSecond : Nat := layout.pt2ptSchedId - 3

def maxSchedCount : Nat := layout.pt2ptSchedId - 4

/-- The schedule ids no collective may get. -/
def reservedSchedIds : List Nat :=
  [layout.pt2ptSchedId, layout.pt2ptAckTag, layout.pt2ptAckFirst, layout.pt2ptAckSecond]

theorem maxSchedCount_lt_reserved {id : Nat} (h : id ∈ layout.reservedSchedIds) : layout.maxSchedCount ≤ id := by
  cases layout <;> revert id <;> decide

theorem maxSchedCount_pos : 0 < layout.maxSchedCount / 2 := by
  cases layout <;> decide

theorem maxSchedCount_lt : layout.maxSchedCount < 2 ^ 16 := by
  cases layout <;> decide

/-! ### Fields -/

/-- How many bits the layout has for the sub-schedule. -/
def opIdBits : Nat :=
  match layout with
  | .common => 8
  | .ofiCxi => 4
  | .mpi => 4

def opIdShift : Nat :=
  match layout with
  | .common => 0
  | .ofiCxi => 0
  | .mpi => 0

def schedIdShift : Nat :=
  match layout with
  | .common => 8
  | .ofiCxi => 4
  | .mpi => 4

def commIdShift : Nat :=
  match layout with
  | .common => 24
  | .ofiCxi => 16
  | .mpi => 16

def rankShift : Nat :=
  match layout with
  | .common => 40
  | .ofiCxi => 28
  | .mpi => 24

def opIdMask : Nat :=
  match layout with
  | .common => 0x00000000000000FF
  | .ofiCxi => 0x000000000000000F
  | .mpi => 0x000000000000000F

def schedIdMask : Nat :=
  match layout with
  | .common => 0x0000000000FFFF00
  | .ofiCxi => 0x000000000000FFF0
  | .mpi => 0x000000000000FFF0

def commIdMask : Nat :=
  match layout with
  | .common => 0x000000FFFF000000
  | .ofiCxi => 0x000000000FFF0000
  | .mpi => 0x0000000000FF0000

def rankMask : Nat :=
  match layout with
  | .common => 0xFFFFFF0000000000
  | .ofiCxi => 0x0000FFFFF0000000
  | .mpi => 0x00000000FF000000

theorem opIdMask_eq : layout.opIdMask = 2 ^ layout.opIdBits - 1 := by
  cases layout <;> rfl

theorem opIdBits_le_shifts : layout.opIdBits ≤ layout.schedIdShift ∧ layout.opIdBits ≤ layout.commIdShift ∧
    layout.opIdBits ≤ layout.rankShift := by
  cases layout <;> decide

theorem opIdShift_eq : layout.opIdShift = 0 := by
  cases layout <;> rfl

theorem opIdBits_le : layout.opIdBits ≤ 8 := by
  cases layout <;> decide

end TagLayout

/-! ## Tag creators -/

/-- Transports: `ccl_atl_transport`. -/
inductive AtlTransport where
  | ofi
  | mpi
  deriving DecidableEq, Repr

/-- What the transport reports of its tags: `atl_attr_t::out`. -/
structure AtlAttrOut where
  transport : AtlTransport
  tagBits : Nat
  maxTag : Nat
  deriving DecidableEq, Repr

/-- The values that come from `atl_ofi_adjust_out_tag` and from `atl_mpi::init`. -/
def AtlAttrOut.Reported (out : AtlAttrOut) : Prop :=
  match out.transport with
  | .ofi => out.tagBits ≤ 64 ∧ out.maxTag = 2 ^ out.tagBits - 1
  | .mpi => out.tagBits = 32 ∧ out.maxTag < 2 ^ 31

/-- `atl_base_comm::init_tag`, with the check in the constructor of `ccl_atl_tag`. -/
def initTag (out : AtlAttrOut) : Option TagLayout :=
  match out.transport with
  | .ofi =>
    if out.tagBits < 32 then none
    else if out.tagBits = 48 then some .ofiCxi else some .common
  | .mpi =>
    if out.maxTag < TagLayout.mpi.opIdMask + TagLayout.mpi.schedIdMask then none
    else if out.tagBits < 32 then none
    else some .mpi

/-- A tag creator: `ccl_atl_tag_impl`. -/
structure AtlTag where
  out : AtlAttrOut
  reported : out.Reported
  layout : TagLayout
  init : initTag out = some layout

namespace AtlTag

variable (tags : AtlTag)

def maxTag : Nat := tags.out.maxTag

/-- `max_tag_mask`, in `size_t`. -/
def maxTagMask : Nat :=
  if tags.maxTag = (pof2 tags.maxTag * 2 + (2 ^ 64 - 1)) % 2 ^ 64 then tags.maxTag else pof2 tags.maxTag - 1

/-- `ccl_atl_tag_impl::create`, which throws on a tag above `max_tag`. -/
def create (rank commId schedId opId : Nat) : Option Nat :=
  let tag :=
    (opId <<< tags.layout.opIdShift) &&& tags.layout.opIdMask |||
    (schedId <<< tags.layout.schedIdShift) &&& tags.layout.schedIdMask |||
    (commId <<< tags.layout.commIdShift) &&& tags.layout.commIdMask |||
    (rank <<< tags.layout.rankShift) &&& tags.layout.rankMask
  let tag := if tags.maxTag < tag then tag &&& tags.maxTagMask else tag
  if tag ≤ tags.maxTag then some tag else none

/-! ### What a tag keeps -/

theorem maxTag_bounds : 2 ^ 16 - 1 ≤ tags.maxTag ∧ tags.maxTag < 2 ^ 64 := by
  obtain ⟨⟨transport, tagBits, maxTag⟩, hreported, layout, hinit⟩ := tags
  show 2 ^ 16 - 1 ≤ maxTag ∧ maxTag < 2 ^ 64
  cases transport with
  | ofi =>
    obtain ⟨hle, rfl⟩ : tagBits ≤ 64 ∧ maxTag = 2 ^ tagBits - 1 := hreported
    have hbits : 32 ≤ tagBits := by
      by_contra h
      rw [initTag, if_pos (lt_of_not_ge h)] at hinit
      cases hinit
    have hlow : 2 ^ 16 ≤ 2 ^ tagBits := Nat.pow_le_pow_right (by decide) (by omega)
    have hhigh : 2 ^ tagBits ≤ 2 ^ 64 := Nat.pow_le_pow_right (by decide) hle
    exact ⟨Nat.sub_le_sub_right hlow 1, by omega⟩
  | mpi =>
    obtain ⟨-, hlt⟩ : tagBits = 32 ∧ maxTag < 2 ^ 31 := hreported
    refine ⟨?_, hlt.trans (by decide)⟩
    by_contra h
    have hlow : maxTag < TagLayout.mpi.opIdMask + TagLayout.mpi.schedIdMask := lt_of_not_ge h
    cases (if_pos hlow).symm.trans hinit

theorem maxTagMask_eq : tags.maxTagMask ≤ tags.maxTag ∧ ∃ k, 16 ≤ k ∧ tags.maxTagMask = 2 ^ k - 1 := by
  obtain ⟨hlow, hhigh⟩ := tags.maxTag_bounds
  have hpos : 0 < tags.maxTag := Nat.lt_of_lt_of_le (by decide) hlow
  have hne := hpos.ne'
  have hlog : tags.maxTag.log2 < 64 := (Nat.log2_lt hne).mpr hhigh
  have hle := Nat.log2_self_le hne
  have hself : tags.maxTag < 2 ^ (tags.maxTag.log2 + 1) := Nat.lt_log2_self
  have hwrap : (2 ^ tags.maxTag.log2 * 2 + (2 ^ 64 - 1)) % 2 ^ 64 = 2 ^ (tags.maxTag.log2 + 1) - 1 := by
    have hmax : 2 ^ (tags.maxTag.log2 + 1) ≤ 2 ^ 64 := Nat.pow_le_pow_right (by decide) hlog
    rw [← Nat.pow_succ, show 2 ^ (tags.maxTag.log2 + 1) + (2 ^ 64 - 1) = 2 ^ (tags.maxTag.log2 + 1) - 1 + 2 ^ 64 by omega,
      Nat.add_mod_right, Nat.mod_eq_of_lt (by omega)]
  unfold maxTagMask
  rw [pof2_eq_of_lt hpos hhigh, hwrap]
  split
  · next h =>
    refine ⟨le_rfl, tags.maxTag.log2 + 1, ?_, h⟩
    by_contra hlt
    have : 2 ^ (tags.maxTag.log2 + 1) ≤ 2 ^ 15 := Nat.pow_le_pow_right (by decide) (by omega)
    omega
  · next h =>
    refine ⟨by omega, _, ?_, rfl⟩
    by_contra hlt
    have : 2 ^ (tags.maxTag.log2 + 1) ≤ 2 ^ 16 := Nat.pow_le_pow_right (by decide) (by omega)
    omega

theorem field_mod {x shift mask bits : Nat} (h : bits ≤ shift) : ((x <<< shift) &&& mask) % 2 ^ bits = 0 := by
  rw [Nat.and_mod_two_pow, Nat.shiftLeft_eq,
    Nat.mod_eq_zero_of_dvd (Nat.dvd_trans (Nat.pow_dvd_pow 2 h) (Nat.dvd_mul_left _ _)), Nat.zero_and]

/-- **A tag is made, is no more than `max_tag`, and has the field of the sub-schedule.** -/
theorem create_eq (rank commId schedId opId : Nat) : ∃ tag, tags.create rank commId schedId opId = some tag ∧
    tag ≤ tags.maxTag ∧ tag % 2 ^ tags.layout.opIdBits = opId % 2 ^ tags.layout.opIdBits := by
  obtain ⟨hmask, k, hk, hmaskeq⟩ := tags.maxTagMask_eq
  obtain ⟨hsched, hcomm, hrank⟩ := tags.layout.opIdBits_le_shifts
  have hbits := tags.layout.opIdBits_le
  unfold create
  extract_lets tag tag'
  have hlow : tag % 2 ^ tags.layout.opIdBits = opId % 2 ^ tags.layout.opIdBits := by
    simp only [tag, Nat.or_mod_two_pow, field_mod hsched, field_mod hcomm, field_mod hrank, Nat.or_zero,
      tags.layout.opIdShift_eq, Nat.shiftLeft_zero, tags.layout.opIdMask_eq, Nat.and_two_pow_sub_one_eq_mod, Nat.mod_mod]
  have htag' : tag' ≤ tags.maxTag ∧ tag' % 2 ^ tags.layout.opIdBits = opId % 2 ^ tags.layout.opIdBits := by
    unfold tag'
    split
    · refine ⟨Nat.and_le_right.trans hmask, ?_⟩
      rw [hmaskeq, Nat.and_two_pow_sub_one_eq_mod, Nat.mod_mod_of_dvd _ (Nat.pow_dvd_pow 2 (by omega)), hlow]
    · next h => exact ⟨le_of_not_gt h, hlow⟩
  rw [if_pos htag'.1]
  exact ⟨tag', rfl, htag'⟩

variable {opId opId' : Nat}

theorem create_ne {rank commId schedId : Nat} (h : opId % 2 ^ tags.layout.opIdBits ≠ opId' % 2 ^ tags.layout.opIdBits) :
    tags.create rank commId schedId opId ≠ tags.create rank commId schedId opId' := by
  obtain ⟨tag, htag, -, hmod⟩ := tags.create_eq rank commId schedId opId
  obtain ⟨tag', htag', -, hmod'⟩ := tags.create_eq rank commId schedId opId'
  rw [htag, htag']
  intro heq
  rw [Option.some.inj heq] at hmod
  exact h (hmod.symm.trans hmod')

theorem create_congr (h : opId % 2 ^ tags.layout.opIdBits = opId' % 2 ^ tags.layout.opIdBits)
    (rank commId schedId : Nat) : tags.create rank commId schedId opId = tags.create rank commId schedId opId' := by
  unfold create
  rw [tags.layout.opIdShift_eq, Nat.shiftLeft_zero, Nat.shiftLeft_zero, tags.layout.opIdMask_eq,
    Nat.and_two_pow_sub_one_eq_mod, Nat.and_two_pow_sub_one_eq_mod, h]

end AtlTag

end OneCcl
