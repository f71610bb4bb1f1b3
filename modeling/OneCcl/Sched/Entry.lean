import OneCcl.Async.Rounds
import OneCcl.Sched.Buffer

/-!
# Schedule entries

The entries the collective builders create, what each does to the memory of its rank (`toOp`), and what
it touches. On host memory a copy and a local reduction are over when `start()` returns, so they are
local actions. A send and the receives are posted to the transport by `start()` and end in a later
`update()`: a `RECV_REDUCE` and a `RECV_COPY` receive into one buffer and compute in the update that
sees the message complete. `SYNC` is visited once the schedule's `start_idx` has come to it, and
`SUBSCHED` runs another schedule.

The tag of a message is made of the sender, the communicator and the ids of the schedule, so a channel
is a sender, a receiver and a schedule id. A receive matches a message no longer than it.
-/

namespace OneCcl

open Async List

/-- `ccl_recv_reduce_result_buf_type`. -/
inductive RecvReduceResult where
  | localBuf
  | commBuf
  deriving DecidableEq, Repr

/-- The entry classes, with the fields their `start()` and `update()` use. -/
inductive EntryKind where
  | send (buf : CclBuffer) (cnt dst : Nat)
  | recv (buf : CclBuffer) (cnt src : Nat)
  | recvReduce (inoutBuf : CclBuffer) (cnt src : Nat) (commBuf : CclBuffer) (result : RecvReduceResult)
  | recvCopy (recvBuf copyBuf : CclBuffer) (cnt src : Nat)
  | copy (inBuf outBuf : CclBuffer) (cnt : Nat)
  | reduceLocal (inBuf : CclBuffer) (cnt : Nat) (inoutBuf : CclBuffer)
  | sync (k : Nat)
  | subsched (i : Nat)
  deriving DecidableEq, Repr

/-- A schedule entry: `sched_entry` with its barrier flag. -/
structure SchedEntry where
  kind : EntryKind
  barrier : Bool
  deriving DecidableEq, Repr

/-- The sender, the receiver and the schedule id of a message. -/
structure Chan where
  src : Nat
  dst : Nat
  tag : Nat
  deriving DecidableEq, Repr

namespace EntryKind

variable {α ι : Type}

/-- The two buffers of the computation at the end of a `RECV_REDUCE`. -/
def reduceBufs (inoutBuf commBuf : CclBuffer) : RecvReduceResult → CclBuffer × CclBuffer
  | .localBuf => (commBuf, inoutBuf)
  | .commBuf => (inoutBuf, commBuf)

/-- What an entry of a schedule with the given id does on a rank. -/
def toOp (op : α → α → α) (rank tag : Nat) (child : Nat → ι) : EntryKind → Op ι Chan Nat (Mem α) (List α)
  | .send buf cnt dst => .send ⟨rank, dst, tag⟩ (load buf cnt)
  | .recv buf cnt src => .recv ⟨src, rank, tag⟩ (fun d => d.length ≤ cnt) (store buf) id
  | .recvReduce inoutBuf cnt src commBuf result =>
    .recv ⟨src, rank, tag⟩ (fun d => d.length ≤ cnt) (store commBuf)
      (compReduce op (reduceBufs inoutBuf commBuf result).1 cnt (reduceBufs inoutBuf commBuf result).2)
  | .recvCopy recvBuf copyBuf cnt src =>
    .recv ⟨src, rank, tag⟩ (fun d => d.length ≤ cnt) (store recvBuf) (compCopy recvBuf copyBuf cnt)
  | .copy inBuf outBuf cnt => .act (compCopy inBuf outBuf cnt)
  | .reduceLocal inBuf cnt inoutBuf => .act (compReduce op inBuf cnt inoutBuf)
  | .sync k => .sync k
  | .subsched i => .sub (child i)

def writes : EntryKind → List (CclBuffer × Nat)
  | .send _ _ _ => []
  | .recv buf cnt _ => [(buf, cnt)]
  | .recvReduce inoutBuf cnt _ commBuf _ => [(inoutBuf, cnt), (commBuf, cnt)]
  | .recvCopy recvBuf copyBuf cnt _ => [(recvBuf, cnt), (copyBuf, cnt)]
  | .copy _ outBuf cnt => [(outBuf, cnt)]
  | .reduceLocal _ cnt inoutBuf => [(inoutBuf, cnt)]
  | .sync _ => []
  | .subsched _ => []

/-- The pieces of memory an entry reads and does not write. -/
def reads : EntryKind → List (CclBuffer × Nat)
  | .send buf cnt _ => [(buf, cnt)]
  | .copy inBuf _ cnt => [(inBuf, cnt)]
  | .reduceLocal inBuf cnt _ => [(inBuf, cnt)]
  | _ => []

end EntryKind

/-! ## Footprints -/

/-- Two pieces of memory without a common element. -/
def PieceApart (p q : CclBuffer × Nat) : Prop :=
  p.1.src ≠ q.1.src ∨ p.1.offset + p.2 ≤ q.1.offset ∨ q.1.offset + q.2 ≤ p.1.offset ∨ p.2 = 0 ∨ q.2 = 0

instance (p q : CclBuffer × Nat) : Decidable (PieceApart p q) :=
  inferInstanceAs (Decidable (_ ∨ _ ∨ _ ∨ _ ∨ _))

variable {p q : CclBuffer × Nat} {x y sendBuf recvBuf : CclBuffer} {count o s o' s' : Nat} {l : List (CclBuffer × Nat)}

theorem PieceApart.disjoint (h : PieceApart p q) : Disjoint (region p.1 p.2) (region q.1 q.2) := by
  refine Set.disjoint_left.mpr fun a hp hq => ?_
  obtain ⟨h1, h2, h3⟩ := hp
  obtain ⟨h4, h5, h6⟩ := hq
  rcases h with h | h | h | h | h
  · exact h (h1.symm.trans h4)
  all_goals omega

theorem PieceApart.symm (h : PieceApart p q) : PieceApart q p := by
  unfold PieceApart at h ⊢
  rcases h with h | h | h | h | h
  · exact .inl (Ne.symm h)
  all_goals omega

theorem PieceApart.parts_of_apart (h : PieceApart (x, count) (y, count))
    (h1 : o + s ≤ count) (h2 : o' + s' ≤ count) : PieceApart (x + o, s) (y + o', s') := by
  rcases h with h | h
  · exact .inl h
  · refine .inr ?_
    simp only [CclBuffer.add_offset] at h ⊢
    omega

theorem PieceApart.parts (h : x = y ∨ PieceApart (x, count) (y, count))
    (h1 : o + s ≤ count) (h2 : o' + s' ≤ count) (hd : o + s ≤ o' ∨ o' + s' ≤ o) : PieceApart (x + o, s) (y + o', s') := by
  rcases h with rfl | h
  · refine .inr ?_
    simp only [CclBuffer.add_offset]
    omega
  · exact h.parts_of_apart h1 h2

def pieces (l : List (CclBuffer × Nat)) : Set (BufSrc × Nat) := {a | ∃ p ∈ l, a ∈ region p.1 p.2}

theorem region_subset_pieces (h : p ∈ l) : region p.1 p.2 ⊆ pieces l := fun _ ha => ⟨p, h, ha⟩

theorem pieces_disjoint {l' : List (CclBuffer × Nat)} (h : ∀ p ∈ l, ∀ q ∈ l', PieceApart p q) :
    Disjoint (pieces l) (pieces l') := by
  refine Set.disjoint_left.mpr fun a => ?_
  rintro ⟨p, hp, ha⟩ ⟨q, hq, ha'⟩
  exact Set.disjoint_left.mp (h p hp q hq).disjoint ha ha'

namespace EntryKind

variable {α ι : Type}

/-- **What an entry touches**: it writes its writes, and looks at its reads and its writes. -/
theorem within (op : α → α → α) (rank tag : Nat) (child : Nat → ι) (e : EntryKind) :
    (e.toOp op rank tag child).Within (pieces (e.reads ++ e.writes)) (pieces e.writes) := by
  have hWR : pieces e.writes ⊆ pieces (e.reads ++ e.writes) :=
    fun _ ⟨p, hp, ha⟩ => ⟨p, mem_append_right _ hp, ha⟩
  have sub : ∀ {p}, p ∈ e.writes → region p.1 p.2 ⊆ pieces (e.reads ++ e.writes) :=
    fun h => region_subset_pieces (mem_append_right _ h)
  cases e with
  | send buf cnt dst =>
    exact fun m m' h => load_congr fun a ha => h a (region_subset_pieces (p := (buf, cnt)) (by simp [reads]) ha)
  | recv buf cnt src =>
    refine ⟨fun d hd => ?_, touches_id hWR⟩
    exact (touches_store buf (of_decide_eq_true hd)).mono (sub (p := (buf, cnt)) (by simp [writes]))
      (region_subset_pieces (p := (buf, cnt)) (by simp [writes])) hWR
  | recvReduce inoutBuf cnt src commBuf result =>
    have h1 : (inoutBuf, cnt) ∈ (recvReduce inoutBuf cnt src commBuf result).writes := by simp [writes]
    have h2 : (commBuf, cnt) ∈ (recvReduce inoutBuf cnt src commBuf result).writes := by simp [writes]
    refine ⟨fun d hd => ?_, ?_⟩
    · exact (touches_store commBuf (of_decide_eq_true hd)).mono (sub h2) (region_subset_pieces h2) hWR
    · cases result with
      | localBuf =>
        exact (touches_compReduce op commBuf inoutBuf cnt).mono (Set.union_subset (sub h2) (sub h1))
          (region_subset_pieces h1) hWR
      | commBuf =>
        exact (touches_compReduce op inoutBuf commBuf cnt).mono (Set.union_subset (sub h1) (sub h2))
          (region_subset_pieces h2) hWR
  | recvCopy recvBuf copyBuf cnt src =>
    have h1 : (recvBuf, cnt) ∈ (recvCopy recvBuf copyBuf cnt src).writes := by simp [writes]
    have h2 : (copyBuf, cnt) ∈ (recvCopy recvBuf copyBuf cnt src).writes := by simp [writes]
    refine ⟨fun d hd => ?_, ?_⟩
    · exact (touches_store recvBuf (of_decide_eq_true hd)).mono (sub h1) (region_subset_pieces h1) hWR
    · exact (touches_compCopy recvBuf copyBuf cnt).mono (Set.union_subset (sub h1) (sub h2))
        (region_subset_pieces h2) hWR
  | copy inBuf outBuf cnt =>
    exact (touches_compCopy inBuf outBuf cnt).mono
      (Set.union_subset (region_subset_pieces (p := (inBuf, cnt)) (by simp [reads]))
        (sub (p := (outBuf, cnt)) (by simp [writes])))
      (region_subset_pieces (p := (outBuf, cnt)) (by simp [writes])) hWR
  | reduceLocal inBuf cnt inoutBuf =>
    exact (touches_compReduce op inBuf inoutBuf cnt).mono
      (Set.union_subset (region_subset_pieces (p := (inBuf, cnt)) (by simp [reads]))
        (sub (p := (inoutBuf, cnt)) (by simp [writes])))
      (region_subset_pieces (p := (inoutBuf, cnt)) (by simp [writes])) hWR
  | sync k => trivial
  | subsched i => trivial

/-- Neither entry writes where the other reads or writes. -/
structure Apart (e e' : EntryKind) : Prop where
  left : ∀ p ∈ e.writes, ∀ q ∈ e'.reads ++ e'.writes, PieceApart p q
  right : ∀ p ∈ e.reads, ∀ q ∈ e'.writes, PieceApart p q

theorem Apart.symm {e e' : EntryKind} (h : e.Apart e') : e'.Apart e := by
  refine ⟨fun p hp q hq => ?_, fun p hp q hq => (h.left q hq p (mem_append_left _ hp)).symm⟩
  rcases mem_append.mp hq with hq | hq
  · exact (h.right q hq p hp).symm
  · exact (h.left q hq p (mem_append_right _ hp)).symm

theorem Apart.indep {e e' : EntryKind} (h : e.Apart e') (op : α → α → α) (rank tag rank' tag' : Nat)
    (child : Nat → ι) : (e.toOp op rank tag child).Indep (e'.toOp op rank' tag' child) := by
  refine (within op rank tag child e).indep (within op rank' tag' child e') ?_ ?_ ?_
  · exact pieces_disjoint fun p hp q hq => h.left p hp q (mem_append_right _ hq)
  · exact pieces_disjoint h.left
  · refine pieces_disjoint fun p hp q hq => ?_
    rcases mem_append.mp hp with hp | hp
    · exact h.right p hp q hq
    · exact h.left p hp q (mem_append_right _ hq)

/-- Two entries may run beside each other: they are apart, or they are `RECV_REDUCE`s of the same result that receive
into different memory. -/
inductive Beside : EntryKind → EntryKind → Prop
  | apart {e e'} (h : e.Apart e') : Beside e e'
  | merge {inoutBuf commBuf commBuf' : CclBuffer} {cnt src src' : Nat}
      (h : PieceApart (commBuf, cnt) (commBuf', cnt)) (hin : PieceApart (commBuf, cnt) (inoutBuf, cnt))
      (hin' : PieceApart (commBuf', cnt) (inoutBuf, cnt)) :
      Beside (recvReduce inoutBuf cnt src commBuf .localBuf) (recvReduce inoutBuf cnt src' commBuf' .localBuf)

theorem Beside.indep {e e' : EntryKind} (h : e.Beside e') (op : α → α → α) [Std.Commutative op] [Std.Associative op]
    (rank tag rank' tag' : Nat) (child : Nat → ι) : (e.toOp op rank tag child).Indep (e'.toOp op rank' tag' child) := by
  cases h with
  | apart h => exact h.indep op rank tag rank' tag' child
  | @merge inoutBuf commBuf commBuf' cnt src src' h hin hin' =>
    refine ⟨?_, fun _ _ => trivial, fun _ _ => trivial⟩
    rintro f (rfl | ⟨d, hd, rfl⟩) g (rfl | ⟨d', hd', rfl⟩)
    · exact compReduce_commute op hin.disjoint hin'.disjoint
    · refine ((touches_store commBuf' (of_decide_eq_true hd')).commute (touches_compReduce op commBuf inoutBuf cnt)
        hin'.disjoint ?_ hin'.disjoint).symm
      exact Set.disjoint_union_right.mpr ⟨h.disjoint.symm, hin'.disjoint⟩
    · refine (touches_store commBuf (of_decide_eq_true hd)).commute (touches_compReduce op commBuf' inoutBuf cnt)
        hin.disjoint ?_ hin.disjoint
      exact Set.disjoint_union_right.mpr ⟨h.disjoint, hin.disjoint⟩
    · exact (touches_store commBuf (of_decide_eq_true hd)).commute (touches_store commBuf' (of_decide_eq_true hd'))
        h.disjoint h.disjoint h.disjoint

end EntryKind

/-! ## Buffers of a collective -/

/-- The caller's buffers of a collective at one rank: one buffer in place, else two that do not overlap. The
ranks have memories of their own, so the result may as well have one name at all of them; whether a rank calls
in place is up to that rank. -/
structure CollBufs (sendBuf recvBuf : CclBuffer) (count : Nat) : Prop where
  send_user : ∃ i, sendBuf.src = .user i
  recv_user : ∃ i, recvBuf.src = .user i
  apart : sendBuf = recvBuf ∨ PieceApart (sendBuf, count) (recvBuf, count)

theorem CollBufs.recv_ne_alloc (h : CollBufs sendBuf recvBuf count) (s i : Nat) : BufSrc.alloc s i ≠ recvBuf.src := by
  obtain ⟨j, hj⟩ := h.recv_user
  rw [hj]
  exact nofun

theorem CollBufs.recv_ne_null (h : CollBufs sendBuf recvBuf count) : recvBuf.src ≠ .null := by
  obtain ⟨j, hj⟩ := h.recv_user
  rw [hj]
  exact nofun

theorem CollBufs.part {off cnt : Nat} (h : CollBufs sendBuf recvBuf count)
    (hle : off + cnt ≤ count) : CollBufs (sendBuf + off) (recvBuf + off) cnt := by
  refine ⟨h.send_user, h.recv_user, ?_⟩
  rcases h.apart with rfl | h
  · exact .inl rfl
  · exact .inr (h.parts_of_apart hle hle)

theorem CollBufs.toBool (h : CollBufs sendBuf recvBuf count) : (sendBuf.toBool && recvBuf.toBool) = true := by
  obtain ⟨i, hi⟩ := h.send_user
  obtain ⟨j, hj⟩ := h.recv_user
  simp only [CclBuffer.toBool, hi, hj, ne_eq, reduceCtorEq, not_false_eq_true, decide_true, Bool.and_self]

/-- Two user buffers: the ranks below `m` pass both, the others the second in place. -/
theorem collBufs_mixed (m count r : Nat) : CollBufs (if r < m then ⟨.user 0, 0⟩ else ⟨.user 1, 0⟩) ⟨.user 1, 0⟩ count := by
  split
  · exact ⟨⟨0, rfl⟩, ⟨1, rfl⟩, .inr (.inl nofun)⟩
  · exact ⟨⟨1, rfl⟩, ⟨1, rfl⟩, .inl rfl⟩

end OneCcl
