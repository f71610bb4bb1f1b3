import Mathlib.Data.List.Basic

/-!
# Recycling of events

`recycle_storage::recycle_events` walks three lists side by side, the pools and the two events that were stored with each of
them, and behind the loop erases what was found complete. The lists stay aligned. With a limit the counter of the loop is
increased twice in a turn, so a loop with an even limit ends at half of it, and one with an odd limit examines everything
(`recycle_events_iff`).
-/

namespace OneCcl

open List

/-- What `store_events` stores: a pool, and the two events, which may be null. -/
structure StoredEvent where
  pool : Nat
  sync : Option Nat
  output : Option Nat
  deriving DecidableEq, Repr

structure RecycleStorage where
  zePools : List Nat
  syncSyclEvents : List (Option Nat)
  outputSyclEvents : List (Option Nat)
  deriving DecidableEq, Repr

namespace RecycleStorage

def storeEvents (s : RecycleStorage) (e : StoredEvent) : RecycleStorage where
  zePools := s.zePools ++ [e.pool]
  syncSyclEvents := s.syncSyclEvents ++ [e.sync]
  outputSyclEvents := s.outputSyclEvents ++ [e.output]

def criticalThreshold : Nat := 1000

/-- The loop of `recycle_events`: for each event that it examines, whether it is to be removed. -/
def recycleLoop (complete : Nat → Bool) (limit : Nat) : Nat → List (Option Nat) → List Bool
  | _, [] => []
  | recyclingCounter, output :: rest =>
    let recyclingCounter := recyclingCounter + 1
    if limit ≠ 0 then
      if recyclingCounter + 1 = limit then [output.any complete]
      else output.any complete :: recycleLoop complete limit (recyclingCounter + 1) rest
    else output.any complete :: recycleLoop complete limit recyclingCounter rest

/-- The erasure behind the loop, of the marked elements. -/
def eraseMarked {β : Type} : List Bool → List β → List β
  | true :: marks, _ :: l => eraseMarked marks l
  | false :: marks, a :: l => a :: eraseMarked marks l
  | _, l => l

/-- What goes back to its pool. An event whose `sync` event is null or not complete is not recovered. -/
def recovered (complete : Nat → Bool) : List Bool → List Nat → List (Option Nat) → List (Nat × Nat)
  | true :: marks, pool :: pools, sync :: syncs =>
    ((sync.filter complete).map (pool, ·)).toList ++ recovered complete marks pools syncs
  | false :: marks, _ :: pools, _ :: syncs => recovered complete marks pools syncs
  | _, _, _ => []

/-- The marks of a call: it does nothing up to the threshold, and has no limit above the critical one. -/
def recycleMarks (s : RecycleStorage) (complete : Nat → Bool) (threshold limit : Nat) : List Bool :=
  let limit := if s.outputSyclEvents.length > criticalThreshold then 0 else limit
  if s.outputSyclEvents.length > threshold then recycleLoop complete limit 0 s.outputSyclEvents else []

/-- `recycle_storage::recycle_events`. -/
def recycleEvents (s : RecycleStorage) (complete : Nat → Bool) (threshold limit : Nat) :
    RecycleStorage × List (Nat × Nat) :=
  let marks := s.recycleMarks complete threshold limit
  ({ zePools := eraseMarked marks s.zePools
     syncSyclEvents := eraseMarked marks s.syncSyclEvents
     outputSyclEvents := eraseMarked marks s.outputSyclEvents },
    recovered complete marks s.zePools s.syncSyclEvents)

/-- How many events a call examines. -/
def examined (s : RecycleStorage) (complete : Nat → Bool) (threshold limit : Nat) : Nat :=
  (s.recycleMarks complete threshold limit).length

/-- The storage after these calls of `store_events`. -/
def ofEvents (es : List StoredEvent) : RecycleStorage := es.foldl storeEvents ⟨[], [], []⟩

theorem ofEvents_eq (es : List StoredEvent) : ofEvents es = ⟨es.map (·.pool), es.map (·.sync), es.map (·.output)⟩ := by
  have hfold : ∀ s : RecycleStorage, es.foldl storeEvents s = ⟨s.zePools ++ es.map (·.pool),
      s.syncSyclEvents ++ es.map (·.sync), s.outputSyclEvents ++ es.map (·.output)⟩ := by
    induction es with
    | nil => simp
    | cons e es ih => simp [ih, storeEvents]
  simpa [ofEvents] using hfold ⟨[], [], []⟩

section

variable {complete : Nat → Bool} {limit c : Nat} {l : List (Option Nat)}

/-- **The marks tell what is complete**, from the oldest event on. -/
theorem recycleLoop_eq : recycleLoop complete limit c l =
    (l.map fun output => output.any complete).take (recycleLoop complete limit c l).length := by
  induction l generalizing c with
  | nil => simp [recycleLoop]
  | cons output l ih =>
    simp only [recycleLoop]
    split
    · split
      · rfl
      · rw [length_cons, map_cons, take_succ_cons, ← ih]
    · rw [length_cons, map_cons, take_succ_cons, ← ih]

theorem length_recycleLoop_even (m : Nat) : (recycleLoop complete (c + 2 * (m + 1)) c l).length = min (m + 1) l.length := by
  induction l generalizing c m with
  | nil => simp [recycleLoop]
  | cons output l ih =>
    rw [recycleLoop, if_pos (by omega)]
    cases m with
    | zero => simp
    | succ m =>
      rw [if_neg (by omega), show c + 2 * (m + 1 + 1) = c + 1 + 1 + 2 * (m + 1) by omega, length_cons, ih, length_cons]
      omega

theorem length_recycleLoop_odd (hlimit : limit % 2 = 1) (hc : c % 2 = 0) :
    (recycleLoop complete limit c l).length = l.length := by
  induction l generalizing c with
  | nil => rfl
  | cons output l ih => rw [recycleLoop, if_pos (by omega), if_neg (by omega), length_cons, ih (by omega), length_cons]

theorem eraseMarked_map {β γ : Type} (f : β → γ) (marks : List Bool) (l : List β) :
    eraseMarked marks (l.map f) = (eraseMarked marks l).map f := by
  induction marks generalizing l with
  | nil => simp [eraseMarked]
  | cons mark marks ih => cases l <;> cases mark <;> simp [eraseMarked, ih]

theorem eraseMarked_take {β : Type} (p : β → Bool) (n : Nat) (l : List β) :
    eraseMarked ((l.map p).take n) l = ((l.take n).filter fun a => !p a) ++ l.drop n := by
  induction l generalizing n with
  | nil => simp [eraseMarked]
  | cons a l ih =>
    cases n with
    | zero => simp [eraseMarked]
    | succ n => cases h : p a <;> simp [eraseMarked, h, ih]

end

variable {complete : Nat → Bool} {threshold limit : Nat} {es : List StoredEvent}

/-- **What a call leaves**: the events that it examines and that are not complete, and those that it does not examine. -/
theorem recycleEvents_ofEvents : ((ofEvents es).recycleEvents complete threshold limit).1 =
    ofEvents (((es.take ((ofEvents es).examined complete threshold limit)).filter fun e => !e.output.any complete) ++
      es.drop ((ofEvents es).examined complete threshold limit)) := by
  have hmarks : (ofEvents es).recycleMarks complete threshold limit =
      (es.map fun e => e.output.any complete).take ((ofEvents es).examined complete threshold limit) := by
    simp only [examined, recycleMarks]
    by_cases h : (ofEvents es).outputSyclEvents.length > threshold
    · simp only [if_pos h]
      refine recycleLoop_eq.trans (congrArg (take _) ?_)
      simp [ofEvents_eq]
    · simp only [if_neg h, length_nil, take_zero]
  rw [← eraseMarked_take, ← hmarks, ofEvents_eq]
  simp only [recycleEvents, eraseMarked_map, ofEvents_eq]

theorem examined_le_iff (hlimit : 1 ≤ limit) (hcritical : es.length ≤ criticalThreshold) :
    (ofEvents es).examined complete threshold limit ≤ limit ↔
      limit % 2 = 0 ∨ es.length ≤ threshold ∨ es.length ≤ limit := by
  have hlen : (ofEvents es).outputSyclEvents.length = es.length := by rw [ofEvents_eq, length_map]
  simp only [examined, recycleMarks, hlen, if_neg (Nat.not_lt.mpr hcritical)]
  by_cases hthreshold : es.length > threshold
  · rw [if_pos hthreshold]
    rcases Nat.mod_two_eq_zero_or_one limit with heven | hodd
    · obtain ⟨m, rfl⟩ : ∃ m, limit = 0 + 2 * (m + 1) := ⟨limit / 2 - 1, by omega⟩
      rw [length_recycleLoop_even]
      omega
    · rw [length_recycleLoop_odd hodd rfl, hlen]
      omega
  · rw [if_neg hthreshold, length_nil]
    omega

/-- **Recycling within the limit.** A call without critical overflow examines at most `limit` events and removes those of
them that are complete exactly when the limit is even, or not more than the threshold or the limit are stored. -/
theorem recycle_events_iff (hlimit : 1 ≤ limit) (hcritical : es.length ≤ criticalThreshold) :
    ((ofEvents es).examined complete threshold limit ≤ limit ∧
      ((ofEvents es).recycleEvents complete threshold limit).1 =
        ofEvents (((es.take ((ofEvents es).examined complete threshold limit)).filter fun e => !e.output.any complete) ++
          es.drop ((ofEvents es).examined complete threshold limit))) ↔
      limit % 2 = 0 ∨ es.length ≤ threshold ∨ es.length ≤ limit := by
  rw [and_iff_left recycleEvents_ofEvents]
  exact examined_le_iff hlimit hcritical

def twoComplete : List StoredEvent := [⟨7, some 0, some 1⟩, ⟨7, some 2, some 3⟩]

/-- With limit 2 one of two complete events is examined, and removed. -/
theorem recycle_events_even_limit : (ofEvents twoComplete).examined (fun _ => true) 0 2 ≤ 2 ∧
    ((ofEvents twoComplete).recycleEvents (fun _ => true) 0 2).1 = ofEvents [⟨7, some 2, some 3⟩] :=
  (recycle_events_iff (by decide) (by decide)).mpr (.inl rfl)

/-- With limit 1 both are examined, and removed. -/
theorem recycle_events_odd_limit : (ofEvents twoComplete).examined (fun _ => true) 0 1 = 2 ∧
    ((ofEvents twoComplete).recycleEvents (fun _ => true) 0 1).1 = ofEvents [] := by
  decide

end RecycleStorage

end OneCcl
