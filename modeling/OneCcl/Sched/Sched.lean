import OneCcl.Sched.Entry

/-!
# Schedules

A collective builder fills a schedule: it creates entries at its end, turns the last entry into a
barrier, and allocates buffers. `Sched` is what the builders see of a `ccl_sched`, and the functions are
the calls they make. A call that throws is `none`.

`schedNet` is a communicator whose ranks have built one schedule each: the net of their entries, over the
transport, with the credits of the flow control.
-/

namespace OneCcl

open Async List

/-- A schedule under construction. Its number tells the buffers it allocates from those of the rank's
other schedules. -/
structure Sched where
  num : Nat
  entries : List SchedEntry
  allocs : Nat
  deriving DecidableEq, Repr

/-- `CCL_MAX_FLOW_CREDITS`. -/
def maxFlowCredits : Nat := 1024

/-- Turn the last entry of a list into a barrier, if there is one. -/
def makeLastBarrier (l : List SchedEntry) : List SchedEntry :=
  match l.getLast? with
  | none => []
  | some e => l.dropLast ++ [{ e with barrier := true }]

namespace Sched

def new (num : Nat) : Sched := ⟨num, [], 0⟩

/-- `entry_factory::create`, at the end of the schedule. -/
def create (s : Sched) (kind : EntryKind) : Sched := { s with entries := s.entries ++ [⟨kind, false⟩] }

/-- `ccl_sched::add_barrier`. -/
def addBarrier (s : Sched) : Sched := { s with entries := makeLastBarrier s.entries }

/-- `ccl_sched::alloc_buffer`; the buffer manager throws on a request of zero size. -/
def allocBuffer (s : Sched) (cnt : Nat) : Option (CclBuffer × Sched) :=
  if 0 < cnt then some (⟨.alloc s.num s.allocs, 0⟩, { s with allocs := s.allocs + 1 }) else none

/-- `entry_factory::create<recv_reduce_entry>`: the constructor throws without a buffer for the result,
and allocates a buffer to receive into when it is given none of its own. -/
def createRecvReduce (s : Sched) (inoutBuf : CclBuffer) (cnt src : Nat) (commBuf : CclBuffer)
    (result : RecvReduceResult) : Option Sched := do
  if (result = .localBuf ∧ inoutBuf.src ≠ .null) ∨ (result = .commBuf ∧ commBuf.src ≠ .null) then
    if (commBuf.src = .null ∨ commBuf = inoutBuf) ∧ 0 < cnt then
      let (commBuf, s) ← s.allocBuffer cnt
      return s.create (.recvReduce inoutBuf cnt src commBuf result)
    else
      return s.create (.recvReduce inoutBuf cnt src commBuf result)
  else none

/-! ### What the calls leave -/

@[simp] theorem create_entries (s : Sched) (k : EntryKind) : (s.create k).entries = s.entries ++ [⟨k, false⟩] := rfl

theorem addBarrier_of_entries {s : Sched} {l : List SchedEntry} {k : EntryKind} {b : Bool}
    (h : s.entries = l ++ [⟨k, b⟩]) : s.addBarrier.entries = l ++ [⟨k, true⟩] := by
  show makeLastBarrier s.entries = _
  rw [makeLastBarrier, h, getLast?_concat, dropLast_concat]

@[simp] theorem addBarrier_create_entries (s : Sched) (k : EntryKind) :
    (s.create k).addBarrier.entries = s.entries ++ [⟨k, true⟩] := addBarrier_of_entries rfl

variable {cnt : Nat} {inoutBuf : CclBuffer}

theorem allocBuffer_of_pos (s : Sched) (h : 0 < cnt) :
    s.allocBuffer cnt = some (⟨.alloc s.num s.allocs, 0⟩, { s with allocs := s.allocs + 1 }) := if_pos h

theorem createRecvReduce_alloc (s : Sched) (src : Nat) (hbuf : inoutBuf.src ≠ .null) (hcnt : 0 < cnt) :
    s.createRecvReduce inoutBuf cnt src .empty .localBuf =
      some ({ s with allocs := s.allocs + 1 }.create
        (.recvReduce inoutBuf cnt src ⟨.alloc s.num s.allocs, 0⟩ .localBuf)) := by
  rw [createRecvReduce, if_pos (.inl ⟨rfl, hbuf⟩), if_pos ⟨.inl rfl, hcnt⟩, allocBuffer_of_pos s hcnt]
  rfl

theorem createRecvReduce_given (s : Sched) {commBuf : CclBuffer} (cnt src : Nat)
    (result : RecvReduceResult) (hin : inoutBuf.src ≠ .null) (hcomm : commBuf.src ≠ .null)
    (hne : 0 < cnt → commBuf ≠ inoutBuf) :
    s.createRecvReduce inoutBuf cnt src commBuf result = some (s.create (.recvReduce inoutBuf cnt src commBuf result)) := by
  rw [createRecvReduce, if_pos (by cases result <;> simp [hin, hcomm]),
    if_neg (fun h => h.1.elim hcomm (hne h.2))]
  rfl

end Sched

/-! ## Loops of a builder -/

theorem foldlM_range {σ : Type} {f : σ → Nat → Option σ} {I : Nat → σ → Prop} {m : Nat} {s : σ} (h0 : I 0 s)
    (hstep : ∀ k < m, ∀ s, I k s → ∃ s', f s k = some s' ∧ I (k + 1) s') :
    ∃ s', (range m).foldlM f s = some s' ∧ I m s' := by
  induction m with
  | zero => exact ⟨s, rfl, h0⟩
  | succ m ih =>
    obtain ⟨s', h1, h2⟩ := ih fun k hk => hstep k (Nat.lt_succ_of_lt hk)
    obtain ⟨s'', h3, h4⟩ := hstep m (Nat.lt_succ_self m) s' h2
    refine ⟨s'', ?_, h4⟩
    rw [range_succ, foldlM_append, h1]
    exact (congrArg (· >>= pure) h3).trans (bind_pure _)

/-- **A loop that counts up**: in step `k` of `n` it appends the entries `E k`. -/
theorem loop_entries {X β : Type} (loop : Nat → X → Sched → β) (out : X → Sched → β) (head : Nat → X)
    {I : Nat → Sched → Prop} {E : Nat → List SchedEntry} {n fuel : Nat} (hzero : ∀ x s, loop 0 x s = out x s)
    (hstop : ∀ fuel s, loop (fuel + 1) (head n) s = out (head n) s)
    (hstep : ∀ k < n, ∀ fuel s, I k s → ∃ s', loop (fuel + 1) (head k) s = loop fuel (head (k + 1)) s' ∧ I (k + 1) s' ∧
      s'.entries = s.entries ++ E k) (hfuel : n ≤ fuel) {s : Sched} (h : I 0 s) :
    ∃ s', loop fuel (head 0) s = out (head n) s' ∧ s'.entries = s.entries ++ (range n).flatMap E := by
  -- what is left to do from step `k` on
  suffices hfrom : ∀ m k fuel s, k + m = n → m ≤ fuel → I k s → ∃ s', loop fuel (head k) s = out (head n) s' ∧
      s'.entries = s.entries ++ (range' k m).flatMap E by
    rw [range_eq_range']
    exact hfrom n 0 fuel s (Nat.zero_add n) hfuel h
  intro m
  induction m with
  | zero =>
    rintro k (_ | fuel) s rfl - -
    · exact ⟨s, hzero _ s, (append_nil _).symm⟩
    · exact ⟨s, hstop fuel s, (append_nil _).symm⟩
  | succ m ih =>
    intro k fuel s hm hfuel h
    obtain ⟨fuel, rfl⟩ := Nat.exists_eq_add_of_le' (Nat.zero_lt_of_lt hfuel)
    obtain ⟨s₁, hone, h₁, hs₁⟩ := hstep k (by omega) fuel s h
    obtain ⟨s', hrest, hs'⟩ := ih (k + 1) fuel s₁ (by omega) (by omega) h₁
    refine ⟨s', hone.trans hrest, ?_⟩
    rw [hs', hs₁, range'_succ, flatMap_cons, append_assoc]

/-! ## Messages of a schedule -/

namespace EntryKind

def sentTo : EntryKind → Option (Nat × Nat)
  | .send _ cnt dst => some (dst, cnt)
  | _ => none

/-- Whom an entry receives from, and how much. -/
def receivedFrom : EntryKind → Option (Nat × Nat)
  | .recv _ cnt src => some (src, cnt)
  | .recvReduce _ cnt src _ _ => some (src, cnt)
  | .recvCopy _ _ cnt src => some (src, cnt)
  | _ => none

@[simp] theorem sentTo_send (buf : CclBuffer) (cnt dst : Nat) : (send buf cnt dst).sentTo = some (dst, cnt) := rfl

/-- A copy or a local reduction: over when started. -/
def isLocal : EntryKind → Bool
  | .copy _ _ _ => true
  | .reduceLocal _ _ _ => true
  | _ => false

variable {α ι : Type} {op : α → α → α} {rank tag : Nat} {child : Nat → ι} {e : EntryKind} {c : Chan}

theorem toOp_send {read : Mem α → List α} (h : e.toOp op rank tag child = .send c read) :
    ∃ buf cnt dst, e = .send buf cnt dst ∧ c = ⟨rank, dst, tag⟩ ∧ read = load buf cnt := by
  cases e with
  | send buf cnt dst =>
    injection h with hc hr
    exact ⟨buf, cnt, dst, rfl, hc.symm, hr.symm⟩
  | _ => cases h

theorem toOp_recv {fits : List α → Bool} {store : List α → Mem α → Mem α} {finish : Mem α → Mem α}
    (h : e.toOp op rank tag child = .recv c fits store finish) :
    ∃ src cnt, e.receivedFrom = some (src, cnt) ∧ c = ⟨src, rank, tag⟩ ∧
      fits = fun d => decide (d.length ≤ cnt) := by
  cases e with
  | recv _ cnt src | recvReduce _ cnt src | recvCopy _ _ cnt src =>
    injection h with hc hf
    exact ⟨src, cnt, rfl, hc.symm, hf.symm⟩
  | _ => cases h

theorem isAct_toOp (op : α → α → α) (rank tag : Nat) (child : Nat → ι) (e : EntryKind) :
    (e.toOp op rank tag child).isAct = e.isLocal := by
  cases e <;> rfl

end EntryKind

/-- The lengths of the messages to a rank, in posting order. -/
def sendCnts (l : List SchedEntry) (d : Nat) : List Nat :=
  l.filterMap fun e => e.kind.sentTo.bind fun p => if p.1 = d then some p.2 else none

/-- The lengths of the messages from a rank, in posting order. -/
def recvCnts (l : List SchedEntry) (s : Nat) : List Nat :=
  l.filterMap fun e => e.kind.receivedFrom.bind fun p => if p.1 = s then some p.2 else none

/-- On every pair of ranks the sends and the receives are the same messages, of the same lengths and in the same
order, and no message goes to or comes from anybody else. -/
structure MessagesMatch (n : Nat) (sched : Nat → Sched) : Prop where
  matched : ∀ s < n, ∀ d < n, sendCnts (sched s).entries d = recvCnts (sched d).entries s
  ranks : ∀ r < n, ∀ p, n ≤ p → sendCnts (sched r).entries p = [] ∧ recvCnts (sched r).entries p = []

/-! ## The net of a communicator -/

section

variable {α : Type}

/-- An entry of a rank's schedule as an entry of the net. -/
def SchedEntry.toEntry {ι : Type} (op : α → α → α) (rank tag : Nat) (child : Nat → ι) (e : SchedEntry) :
    Async.Entry ι Chan Nat (Mem α) (List α) := ⟨e.kind.toOp op rank tag child, e.barrier⟩

/-- The ranks `0 … n-1` of a communicator, each running the schedule it built. -/
def schedNet (op : α → α → α) (n tag : Nat) (eager : Nat → Nat → Bool) (sched : Nat → Sched) :
    Net Nat Nat Chan Nat (Mem α) (List α) where
  tasks := range n
  prog r := if r < n then (sched r).entries.map (·.toEntry op r tag id) else []
  quiet _ hr := if_neg fun h => hr (mem_range.mpr h)
  rank r := r
  credits _ := maxFlowCredits
  eager := eager

end

end OneCcl
