import OneCcl.Comm.Comm
import OneCcl.Reduction.Doubling
import OneCcl.Sched.Rounds

/-!
# Renumbered ranks

The algorithms on a power of two of ranks renumber those that take part. A `Numbering` is such a renumbering: the
real rank of each new rank and back. What the ranks do in a round is then given by their new ranks (`on`), and
so are the conditions for the round to be good.
-/

namespace OneCcl

open Async Reduction List

/-- New ranks below `m` for some of the ranks below `n`. -/
structure Numbering (n m : Nat) where
  real : Nat → Nat
  new : Nat → Option Nat
  real_lt : ∀ v < m, real v < n
  new_real : ∀ v < m, new (real v) = some v
  of_new : ∀ r < n, ∀ v, new r = some v → v < m ∧ real v = r

namespace Numbering

variable {n m : Nat} (N : Numbering n m) {β : Type}

/-- What the ranks that take part do, by their new rank. -/
def on (f : Nat → β) (r : Nat) : Option β := if r < n then (N.new r).map f else none

theorem on_real (f : Nat → β) {v : Nat} (hv : v < m) : N.on f (N.real v) = some (f v) := by
  rw [on, if_pos (N.real_lt v hv), N.new_real v hv]
  rfl

variable {r : Nat} {f : Nat → Option EntryKind}

theorem on_of_le (f : Nat → β) (h : n ≤ r) : N.on f r = none := if_neg h.not_gt

theorem on_of_new (f : Nat → β) (h : N.new r = none) : N.on f r = none := by
  unfold on
  rw [h, Option.map_none, ite_self]

theorem exists_of_on {f : Nat → β} {x : β} (h : N.on f r = some x) : ∃ v < m, r = N.real v ∧ x = f v := by
  unfold on at h
  split at h
  next hr =>
    obtain ⟨v, hv, rfl⟩ := Option.map_eq_some_iff.mp h
    obtain ⟨hlt, hreal⟩ := N.of_new r hr v hv
    exact ⟨v, hlt, hreal.symm, rfl⟩
  next => cases h

theorem swapGood_on {K k : Nat} {N : Numbering n (2 ^ K)} {f : Nat → Swap} (hk : k < K)
    (hdst : ∀ v < 2 ^ K, (f v).dst = N.real (v ^^^ 2 ^ k)) (hsrc : ∀ v < 2 ^ K, (f v).src = N.real (v ^^^ 2 ^ k))
    (hrecv : ∀ v < 2 ^ K, (f v).receive.receivedFrom = some ((f v).src, (f v).recvCnt))
    (hcnt : ∀ v < 2 ^ K, (f (v ^^^ 2 ^ k)).recvCnt = (f v).sendCnt)
    (hapart : ∀ v < 2 ^ K, (f v).receive.Apart (.send (f v).buf (f v).sendCnt (f v).dst)) : SwapGood (N.on f) n := by
  have hlt : ∀ v < 2 ^ K, v ^^^ 2 ^ k < 2 ^ K := fun v hv => xor_two_pow_lt hv hk
  refine ⟨fun r hr => N.on_of_le f hr, fun r x hx => ?_, fun r x hx => ?_, fun r x hx => ?_,
    fun r x hx => ?_⟩ <;> obtain ⟨v, hv, rfl, rfl⟩ := N.exists_of_on hx
  · exact hrecv v hv
  · refine ⟨f (v ^^^ 2 ^ k), ?_, ?_, hcnt v hv⟩
    · rw [hdst v hv, N.on_real f (hlt v hv)]
    · rw [hsrc _ (hlt v hv), Nat.xor_xor_cancel_right]
  · refine ⟨f (v ^^^ 2 ^ k), ?_, ?_, ?_⟩
    · rw [hsrc v hv, N.on_real f (hlt v hv)]
    · rw [hdst _ (hlt v hv), Nat.xor_xor_cancel_right]
    · rw [← hcnt _ (hlt v hv), Nat.xor_xor_cancel_right]
  · exact hapart v hv

theorem kindsGood_on {f : Nat → EntryKind} (h : ∀ v, (f v).isLocal = true) : KindsGood (fun r => (N.on f r).toList) n := by
  refine kindsGood_local (fun r hr => ?_) (fun r => Option.length_toList_le) fun r k hk => ?_
  · rw [N.on_of_le f hr]
    rfl
  · obtain ⟨v, -, -, rfl⟩ := N.exists_of_on (Option.mem_toList.mp hk)
    exact h v

theorem mem_join_on {k : EntryKind} : k ∈ ((N.on f r).join).toList ↔ ∃ v < m, r = N.real v ∧ k ∈ f v := by
  rw [Option.mem_toList, Option.join_eq_some_iff]
  constructor
  · intro h
    obtain ⟨v, hv, hr, hf⟩ := N.exists_of_on h
    exact ⟨v, hv, hr, hf.symm⟩
  · rintro ⟨v, hv, rfl, hf⟩
    rw [N.on_real f hv, hf]

section

variable (hplain : ∀ v < m, ∀ k ∈ f v, (∃ p, k.sentTo = some p) ∨ ∃ p, k.receivedFrom = some p)

include hplain

theorem kindsShaped_on : KindsShaped (fun r => ((N.on f r).join).toList) n := by
  refine kindsShaped_single (fun r hr => ?_) (fun r => Option.length_toList_le) fun r k hk => ?_
  · rw [N.on_of_le f hr]
    rfl
  · obtain ⟨v, hv, -, hf⟩ := N.mem_join_on.mp hk
    rcases hplain v hv k hf with ⟨p, hp⟩ | ⟨p, hp⟩ <;> constructor <;> rintro i rfl <;> cases hp

/-- Every rank sends or receives, and each message is received at its length. -/
theorem kindsGood_single_on (hforth : ∀ v < m, ∀ k ∈ f v, ∀ d c, k.sentTo = some (d, c) →
      ∃ u < m, d = N.real u ∧ ∃ k' ∈ f u, k'.receivedFrom = some (N.real v, c))
    (hback : ∀ v < m, ∀ k ∈ f v, ∀ s c, k.receivedFrom = some (s, c) →
      ∃ u < m, s = N.real u ∧ ∃ k' ∈ f u, k'.sentTo = some (N.real v, c)) :
    KindsGood (fun r => ((N.on f r).join).toList) n := by
  refine ⟨N.kindsShaped_on hplain, fun s d c => ?_⟩
  simp only [mem_filterMap, N.mem_join_on]
  constructor
  · rintro ⟨k, ⟨v, hv, rfl, hf⟩, hk⟩
    obtain ⟨u, hu, rfl, k', hf', hk'⟩ := hforth v hv k hf d c hk
    exact ⟨k', ⟨u, hu, rfl, hf'⟩, hk'⟩
  · rintro ⟨k, ⟨v, hv, rfl, hf⟩, hk⟩
    obtain ⟨u, hu, rfl, k', hf', hk'⟩ := hback v hv k hf s c hk
    exact ⟨k', ⟨u, hu, rfl, hf'⟩, hk'⟩

/-- Every rank sends or receives, and a receive may be longer than its message. -/
theorem kindsRoomy_single_on (hforth : ∀ v < m, ∀ k ∈ f v, ∀ d c, k.sentTo = some (d, c) →
      ∃ u < m, d = N.real u ∧ ∃ k' ∈ f u, ∃ c', k'.receivedFrom = some (N.real v, c') ∧ c ≤ c')
    (hback : ∀ v < m, ∀ k ∈ f v, ∀ s c, k.receivedFrom = some (s, c) →
      ∃ u < m, s = N.real u ∧ ∃ k' ∈ f u, ∃ c', k'.sentTo = some (N.real v, c')) :
    KindsRoomy (fun r => ((N.on f r).join).toList) n := by
  have hshaped := N.kindsShaped_on hplain
  -- a message and the receive it goes to
  have hrecv : ∀ {s d c}, (d, c) ∈ (((N.on f s).join).toList).filterMap (·.sentTo) →
      ∃ c', (s, c') ∈ (((N.on f d).join).toList).filterMap (·.receivedFrom) ∧ c ≤ c' := by
    intro s d c h
    obtain ⟨k, hk, hs⟩ := mem_filterMap.mp h
    obtain ⟨v, hv, rfl, hf⟩ := N.mem_join_on.mp hk
    obtain ⟨u, hu, rfl, k', hf', c', hk', hle⟩ := hforth v hv k hf d c hs
    exact ⟨c', mem_filterMap.mpr ⟨k', N.mem_join_on.mpr ⟨u, hu, rfl, hf'⟩, hk'⟩, hle⟩
  refine ⟨hshaped, fun s d => ⟨?_, ?_⟩, fun s d c c' hs hd => ?_⟩
  · rintro ⟨c, h⟩
    obtain ⟨c', h', -⟩ := hrecv h
    exact ⟨c', h'⟩
  · rintro ⟨c, h⟩
    obtain ⟨k, hk, hs⟩ := mem_filterMap.mp h
    obtain ⟨v, hv, rfl, hf⟩ := N.mem_join_on.mp hk
    obtain ⟨u, hu, rfl, k', hf', c', hk'⟩ := hback v hv k hf s c hs
    exact ⟨c', mem_filterMap.mpr ⟨k', N.mem_join_on.mpr ⟨u, hu, rfl, hf'⟩, hk'⟩⟩
  · obtain ⟨c'', hd', hle⟩ := hrecv hs
    have heq := eq_of_length_le_one (hshaped.recv_once d) hd' hd
    rwa [(Prod.mk.inj heq).2] at hle

end

end Numbering

end OneCcl
