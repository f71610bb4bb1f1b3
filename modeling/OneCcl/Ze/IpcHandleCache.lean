import Mathlib.Algebra.Order.Ring.Int
import Mathlib.Data.List.Nodup
import Mathlib.Data.List.Perm.Basic

/-!
# The cache of IPC handles

`ipc_handle_cache` keeps one handle for a pointer and throws the one at the back of `lru_order` out when it is full. Map and
list hold the same pointers on every path (`Consistent`), so the loop that makes room always finds what it looks for. But a
hit leaves `lru_order` as it is: the list is in the order in which the handles were made, and the pointer at its back may
have been asked for a moment ago. Only while hits are for the pointer at the front is it the order of the requests
(`ipc_cache_evicts_oldest`).
-/

namespace OneCcl

open List

/-- A handle of the driver, by the allocation it was made for. -/
structure ZeIpcHandle where
  ptr : Nat
  memId : Nat
  deriving DecidableEq, Repr

/-- `ipc_entry_t`. -/
structure IpcEntry where
  memId : Nat
  handle : ZeIpcHandle
  handleId : Nat
  deriving DecidableEq, Repr

/-- The map, `lru_order` read from its back, and `global_handle_id`. -/
structure IpcHandleCache where
  cache : List (Nat × IpcEntry)
  lruOrder : List Nat
  globalHandleId : Nat
  deriving DecidableEq, Repr

/-- What the driver does in a call: for which pointers it tells the properties and takes a handle back, and whether it gives
a new one. Where it does not, the call throws. -/
structure ZeDriver where
  closes : Nat → Bool
  opens : Bool

/-- What comes back of a call. -/
inductive IpcReply where
  | thrown
  | done
  | value (entry : IpcEntry)
  deriving DecidableEq, Repr

namespace IpcHandleCache

def empty : IpcHandleCache := ⟨[], [], 0⟩

def find (s : IpcHandleCache) (key : Nat) : Option IpcEntry := (s.cache.find? (·.1 == key)).map Prod.snd

/-- `cache.erase` of what was found, and `lru_order.remove`. -/
def erase (s : IpcHandleCache) (key : Nat) : IpcHandleCache :=
  { s with cache := s.cache.eraseP (·.1 == key), lruOrder := s.lruOrder.filter (· != key) }

/-- The loop of `push` that makes room, and whether it came to its end or threw. It has nothing to take from an empty
`lru_order`, and a key that is not in the map stays at the back for ever: there is no result then. -/
def makeRoom (threshold : Nat) (closes : Nat → Bool) (cache : List (Nat × IpcEntry)) :
    List Nat → Option ((List (Nat × IpcEntry) × List Nat) × Bool)
  | [] => if cache.length < threshold then some ((cache, []), true) else none
  | lruKey :: rest =>
    if cache.length < threshold then some ((cache, lruKey :: rest), true)
    else if cache.any (·.1 == lruKey) then
      if closes lruKey then makeRoom threshold closes (cache.eraseP (·.1 == lruKey)) rest
      else some ((cache, lruKey :: rest), false)
    else none

/-- `push`, with the `update_lru_order` after it. -/
def push (s : IpcHandleCache) (threshold : Nat) (driver : ZeDriver) (key memId : Nat) :
    Option (IpcHandleCache × IpcReply) :=
  (makeRoom threshold driver.closes s.cache s.lruOrder).map fun room =>
    let s := { s with cache := room.1.1, lruOrder := room.1.2 }
    if room.2 && driver.opens then
      let outValue := ⟨memId, ⟨key, memId⟩, s.globalHandleId⟩
      (⟨(key, outValue) :: s.cache, s.lruOrder.filter (· != key) ++ [key], s.globalHandleId + 1⟩, .value outValue)
    else (s, .thrown)

def get (s : IpcHandleCache) (threshold : Nat) (driver : ZeDriver) (context device ptr memId : Nat) :
    Option (IpcHandleCache × IpcReply) :=
  if context = 0 ∨ device = 0 ∨ ptr = 0 then some (s, .thrown)
  else
    match s.find ptr with
    | some value => if value.memId = memId then some (s, .value value) else (s.erase ptr).push threshold driver ptr memId
    | none => s.push threshold driver ptr memId

/-- `evict`, with the id the driver tells for the pointer. -/
def evict (s : IpcHandleCache) (ptr : Nat) (allocId : Option Nat) : IpcHandleCache × IpcReply :=
  if ptr = 0 then (s, .thrown)
  else
    match s.find ptr with
    | some value =>
      match allocId with
      | some id => if value.memId = id then (s.erase ptr, .done) else (s, .done)
      | none => (s, .thrown)
    | none => (s, .done)

end IpcHandleCache

inductive IpcCall where
  | get (driver : ZeDriver) (context device ptr memId : Nat)
  | evict (ptr : Nat) (allocId : Option Nat)

namespace IpcHandleCache

def step (s : IpcHandleCache) (threshold : Nat) : IpcCall → Option (IpcHandleCache × IpcReply)
  | .get driver context device ptr memId => s.get threshold driver context device ptr memId
  | .evict ptr allocId => some (s.evict ptr allocId)

/-- The requests made so far, the last one first, after a call. A call with a null argument is none. -/
def requests (history : List Nat) : IpcCall → List Nat
  | .get _ context device ptr _ => if context = 0 ∨ device = 0 ∨ ptr = 0 then history else ptr :: history
  | .evict .. => history

/-- Runs whose calls all meet the condition, with the requests. -/
inductive Run (ok : IpcHandleCache → IpcCall → Prop) (threshold : Nat) : List Nat → IpcHandleCache → Prop
  | empty : Run ok threshold [] empty
  | call {history s call s' reply} (hrun : Run ok threshold history s) (hok : ok s call)
    (hstep : s.step threshold call = some (s', reply)) : Run ok threshold (requests history call) s'

/-- A hit is for the pointer at the front of `lru_order`. A call with a null argument throws before it looks. -/
def HitsFront (s : IpcHandleCache) : IpcCall → Prop
  | .get _ context device ptr memId => ¬ (context = 0 ∨ device = 0 ∨ ptr = 0) →
    ∀ value, s.find ptr = some value → value.memId = memId → s.lruOrder.getLast? = some ptr
  | .evict .. => True

/-- Map and list hold the same pointers, each once, at most `threshold`; and what is kept for a pointer is a handle to the
allocation of its id. -/
structure Consistent (threshold : Nat) (s : IpcHandleCache) : Prop where
  same : (s.cache.map Prod.fst).Perm s.lruOrder
  nodup : s.lruOrder.Nodup
  le : s.cache.length ≤ threshold
  made : ∀ e ∈ s.cache, e.2.handle = ⟨e.1, e.2.memId⟩

/-- What a call does to the list. -/
inductive Turn (s : IpcHandleCache) : IpcCall → List Nat → Prop
  | quiet {call} (h : ∀ history, requests history call = history) : Turn s call s.lruOrder
  | hit {driver context device ptr memId value} (hfind : s.find ptr = some value) (hmem : value.memId = memId) :
    Turn s (.get driver context device ptr memId) s.lruOrder
  | miss {driver context device ptr memId order order'} (hnull : ¬(context = 0 ∨ device = 0 ∨ ptr = 0))
    (hsuffix : order <:+ s.lruOrder.filter (· != ptr)) (horder : order' = order ∨ order' = order ++ [ptr]) :
    Turn s (.get driver context device ptr memId) order'
  | erased {ptr allocId} : Turn s (.evict ptr allocId) (s.lruOrder.filter (· != ptr))

/-- A call whose step is `turned` keeps map and list consistent, and gives a handle to the right allocation only. -/
structure Turned (threshold : Nat) (s : IpcHandleCache) (call : IpcCall) (turned : IpcHandleCache × IpcReply) : Prop where
  consistent : Consistent threshold turned.1
  value : ∀ driver context device ptr memId entry, call = .get driver context device ptr memId →
    turned.2 = .value entry → entry.handle = ⟨ptr, memId⟩
  turn : Turn s call turned.1.lruOrder

variable {s s' : IpcHandleCache} {threshold key key' context device ptr memId : Nat} {driver : ZeDriver}
  {cache : List (Nat × IpcEntry)} {order history : List Nat} {entry : IpcEntry} {call : IpcCall} {reply : IpcReply}

theorem map_fst_eraseP : (cache.eraseP (·.1 == key)).map Prod.fst = (cache.map Prod.fst).erase key := by
  rw [erase_eq_eraseP', eraseP_map]
  rfl

theorem length_of_same (h : (cache.map Prod.fst).Perm order) : cache.length = order.length := by
  rw [← h.length_eq, length_map]

theorem mem_of_find (h : s.find key = some entry) : (key, entry) ∈ s.cache := by
  obtain ⟨e, he, rfl⟩ := Option.map_eq_some_iff.mp h
  have hkey : e.1 = key := by simpa using find?_some he
  exact hkey ▸ mem_of_find?_eq_some he

theorem Consistent.notMem_of_find (hs : Consistent threshold s) (h : s.find key = none) : key ∉ s.lruOrder := by
  intro hmem
  obtain ⟨e, he, hkey⟩ := mem_map.mp (hs.same.mem_iff.mpr hmem)
  have hnone := find?_eq_none.mp (Option.map_eq_none_iff.mp h) e he
  simp [hkey] at hnone

theorem Consistent.erase (hs : Consistent threshold s) (key : Nat) : Consistent threshold (s.erase key) where
  same := by
    simp only [IpcHandleCache.erase]
    rw [map_fst_eraseP, ← hs.nodup.erase_eq_filter]
    exact hs.same.erase key
  nodup := hs.nodup.filter _
  le := length_eraseP_le.trans hs.le
  made e he := hs.made e (mem_of_mem_eraseP he)

/-- Room is made by taking keys from the back of the list, and from the map with it. -/
theorem makeRoom_spec (closes : Nat → Bool) (hpos : 0 < threshold) (hsame : (cache.map Prod.fst).Perm order)
    (hnodup : order.Nodup) : ∃ cache' order' ends,
      makeRoom threshold closes cache order = some ((cache', order'), ends) ∧ order' <:+ order ∧
      (cache'.map Prod.fst).Perm order' ∧ cache' ⊆ cache ∧ (ends = true → cache'.length < threshold) := by
  induction order generalizing cache with
  | nil =>
    have hlen : cache.length < threshold := by
      rw [length_of_same hsame]
      exact hpos
    exact ⟨cache, [], true, by rw [makeRoom, if_pos hlen], suffix_rfl, hsame, Subset.refl _, fun _ => hlen⟩
  | cons lruKey rest ih =>
    rw [makeRoom]
    split
    · next hlen => exact ⟨cache, lruKey :: rest, true, rfl, suffix_rfl, hsame, Subset.refl _, fun _ => hlen⟩
    · next hfull =>
      have hany : cache.any (·.1 == lruKey) = true := by
        obtain ⟨e, he, hkey⟩ := mem_map.mp (hsame.mem_iff.mpr mem_cons_self)
        exact any_eq_true.mpr ⟨e, he, by simp [hkey]⟩
      rw [if_pos hany]
      split
      · have hrest : ((cache.eraseP (·.1 == lruKey)).map Prod.fst).Perm rest := by
          rw [map_fst_eraseP, ← erase_cons_head lruKey rest]
          exact hsame.erase lruKey
        obtain ⟨cache', order', ends, heq, hsuffix, hperm, hsub, hends⟩ := ih hrest hnodup.of_cons
        exact ⟨cache', order', ends, heq, hsuffix.trans (suffix_cons _ _), hperm,
          fun e he => mem_of_mem_eraseP (hsub he), hends⟩
      · exact ⟨cache, lruKey :: rest, false, rfl, suffix_rfl, hsame, Subset.refl _, nofun⟩

theorem push_spec (driver : ZeDriver) (memId : Nat) (hpos : 0 < threshold) (hs : Consistent threshold s)
    (hkey : key ∉ s.lruOrder) :
    ∃ s' reply order, s.push threshold driver key memId = some (s', reply) ∧ Consistent threshold s' ∧
      (∀ entry, reply = .value entry → entry.handle = ⟨key, memId⟩) ∧
      order <:+ s.lruOrder ∧ (s'.lruOrder = order ∨ s'.lruOrder = order ++ [key]) := by
  obtain ⟨cache', order', ends, heq, hsuffix, hperm, hsub, hends⟩ :=
    makeRoom_spec driver.closes hpos hs.same hs.nodup
  have hnodup : order'.Nodup := hs.nodup.sublist hsuffix.sublist
  have hnot : key ∉ order' := fun hmem => hkey (hsuffix.subset hmem)
  have hfilter : order'.filter (· != key) = order' := filter_eq_self.mpr fun k hk => by
    simpa using fun h : k = key => hnot (h ▸ hk)
  rw [push, heq, Option.map_some]
  dsimp only
  rw [hfilter]
  split
  · next hok =>
    refine ⟨_, _, order', rfl, ⟨?_, ?_, ?_, ?_⟩, ?_, hsuffix, .inr rfl⟩
    · exact (hperm.cons key).trans (perm_append_singleton key order').symm
    · exact nodup_append.mpr ⟨hnodup, nodup_singleton key, fun a ha b hb => by
        rw [mem_singleton.mp hb]
        exact fun h => hnot (h ▸ ha)⟩
    · exact hends (Bool.and_eq_true_iff.mp hok).1
    · exact forall_mem_cons.mpr ⟨rfl, fun e he => hs.made e (hsub he)⟩
    · rintro entry ⟨⟩
      rfl
  · have hle : cache'.length ≤ threshold := by
      have hlen := hsuffix.length_le
      rw [← length_of_same hperm, ← length_of_same hs.same] at hlen
      exact hlen.trans hs.le
    exact ⟨_, _, order', rfl, ⟨hperm, hnodup, hle, fun e he => hs.made e (hsub he)⟩, nofun, hsuffix, .inl rfl⟩

theorem turned_get (hpos : 0 < threshold) (hs : Consistent threshold s) (driver : ZeDriver)
    (context device ptr memId : Nat) : ∃ turned, s.get threshold driver context device ptr memId = some turned ∧
      Turned threshold s (.get driver context device ptr memId) turned := by
  rw [get]
  split
  · next hnull => exact ⟨_, rfl, hs, nofun, .quiet fun history => if_pos hnull⟩
  · next hnull =>
    cases hfind : s.find ptr with
    | some value =>
      dsimp only
      split
      · next hmem =>
        refine ⟨_, rfl, hs, ?_, .hit hfind hmem⟩
        rintro _ _ _ _ _ _ ⟨⟩ ⟨⟩
        exact hmem ▸ hs.made _ (mem_of_find hfind)
      · obtain ⟨s', reply, order, heq, hs', hreply, hsuffix, horder⟩ :=
          push_spec driver memId hpos (hs.erase ptr) (show ptr ∉ s.lruOrder.filter (· != ptr) by simp)
        refine ⟨_, heq, hs', ?_, .miss hnull hsuffix horder⟩
        rintro _ _ _ _ _ entry ⟨⟩ hvalue
        exact hreply entry hvalue
    | none =>
      have hnot := hs.notMem_of_find hfind
      obtain ⟨s', reply, order, heq, hs', hreply, hsuffix, horder⟩ := push_spec driver memId hpos hs hnot
      have hfilter : s.lruOrder.filter (· != ptr) = s.lruOrder := filter_eq_self.mpr fun k hk => by
        simpa using fun h : k = ptr => hnot (h ▸ hk)
      refine ⟨_, heq, hs', ?_, .miss hnull (hfilter.symm ▸ hsuffix) horder⟩
      rintro _ _ _ _ _ entry ⟨⟩ hvalue
      exact hreply entry hvalue

theorem turned_evict (hs : Consistent threshold s) (ptr : Nat) (allocId : Option Nat) :
    Turned threshold s (.evict ptr allocId) (s.evict ptr allocId) := by
  have hquiet : ∀ reply, Turned threshold s (.evict ptr allocId) (s, reply) := fun reply =>
    ⟨hs, nofun, .quiet fun _ => rfl⟩
  rw [evict]
  split
  · exact hquiet _
  · split
    · split
      · split
        · exact ⟨hs.erase ptr, nofun, .erased⟩
        · exact hquiet _
      · exact hquiet _
    · exact hquiet _

/-- Every call returns and keeps table and list consistent. -/
theorem turned_step (hpos : 0 < threshold) (hs : Consistent threshold s) (call : IpcCall) :
    ∃ turned, s.step threshold call = some turned ∧ Turned threshold s call turned := by
  cases call with
  | get driver context device ptr memId => exact turned_get hpos hs driver context device ptr memId
  | evict ptr allocId => exact ⟨_, rfl, turned_evict hs ptr allocId⟩

variable {ok : IpcHandleCache → IpcCall → Prop}

/-- So they are consistent throughout a run. -/
theorem consistent_of_run (hpos : 0 < threshold) (hrun : Run ok threshold history s) : Consistent threshold s := by
  induction hrun with
  | empty => exact ⟨.refl _, nodup_nil, Nat.zero_le _, nofun⟩
  | @call history s call s' reply _ _ hstep ih =>
    obtain ⟨turned, heq, hturned⟩ := turned_step hpos ih call
    cases heq.symm.trans hstep
    exact hturned.consistent

/-! ## The order of the requests -/

/-- The list is in the order of the last requests, those longest ago at its back. -/
def Recent (history order : List Nat) : Prop := order.Pairwise fun k k' => history.idxOf k' < history.idxOf k

theorem Recent.request (h : Recent history order) (hptr : ptr ∉ order) :
    Recent (ptr :: history) order ∧ Recent (ptr :: history) (order ++ [ptr]) := by
  have hidx : ∀ k ∈ order, (ptr :: history).idxOf k = history.idxOf k + 1 := fun k hk =>
    idxOf_cons_ne _ fun heq => hptr (heq ▸ hk)
  have hrecent : Recent (ptr :: history) order := h.imp_of_mem fun {k k'} hk hk' hlt => by
    rw [hidx k hk, hidx k' hk']
    exact Nat.succ_lt_succ hlt
  refine ⟨hrecent, pairwise_append.mpr ⟨hrecent, pairwise_singleton _ _, fun k hk k' hk' => ?_⟩⟩
  rw [mem_singleton.mp hk', idxOf_cons_self, hidx k hk]
  exact Nat.succ_pos _

theorem recent_turn (h : Recent history s.lruOrder) (hs : Consistent threshold s) (hok : HitsFront s call)
    (hturn : Turn s call order) : Recent (requests history call) order := by
  cases hturn with
  | quiet hquiet => rwa [hquiet]
  | @hit driver context device ptr memId value hfind hmem =>
    by_cases hnull : context = 0 ∨ device = 0 ∨ ptr = 0
    · rwa [requests, if_pos hnull]
    · obtain ⟨older, holder⟩ := getLast?_eq_some_iff.mp (hok hnull value hfind hmem)
      have hnodup := hs.nodup
      rw [holder] at h hnodup ⊢
      rw [requests, if_neg hnull]
      have hnot : ptr ∉ older := fun hin => (nodup_append.mp hnodup).2.2 ptr hin ptr mem_cons_self rfl
      exact (Recent.request (pairwise_append.mp h).1 hnot).2
  | @miss driver context device ptr memId kept order' hnull hsuffix horder =>
    have hkept : Recent history kept := h.sublist (hsuffix.sublist.trans filter_sublist)
    have hnot : ptr ∉ kept := fun hin => by simpa using (mem_filter.mp (hsuffix.subset hin)).2
    rw [requests, if_neg hnull]
    rcases horder with rfl | rfl
    · exact (hkept.request hnot).1
    · exact (hkept.request hnot).2
  | erased => exact h.filter _

/-- Of the keys that were there, those that a request takes away were asked for before those it leaves. -/
theorem Recent.oldest (h : Recent history s.lruOrder) (hturn : Turn s (.get driver context device ptr memId) order)
    (hk : key ∈ s.lruOrder) (hgone : key ∉ order) (hne : key ≠ ptr) (hkey' : key' ∈ order) (hne' : key' ≠ ptr) :
    history.idxOf key' < history.idxOf key := by
  cases hturn with
  | quiet | hit => exact absurd hk hgone
  | @miss _ _ _ _ _ kept _ _ hsuffix horder =>
    obtain ⟨evicted, hsplit⟩ := hsuffix
    have hboth : Recent history (evicted ++ kept) := hsplit ▸ h.filter _
    have hin : key ∈ evicted ++ kept := hsplit ▸ mem_filter.mpr ⟨hk, by simpa using hne⟩
    have hkept : key ∉ kept ∧ key' ∈ kept := by
      rcases horder with rfl | rfl
      · exact ⟨hgone, hkey'⟩
      · exact ⟨fun hin => hgone (mem_append_left _ hin),
          (mem_append.mp hkey').resolve_right fun hin => hne' (mem_singleton.mp hin)⟩
    exact (pairwise_append.mp hboth).2.2 key ((mem_append.mp hin).resolve_right hkept.1) key' hkept.2

/-- The list is in the order of the last requests, if hits are at its front. -/
theorem recent_of_run (hpos : 0 < threshold) (hrun : Run HitsFront threshold history s) : Recent history s.lruOrder := by
  induction hrun with
  | empty => exact Pairwise.nil
  | @call history s call s' reply hrun hok hstep ih =>
    have hs := consistent_of_run hpos hrun
    obtain ⟨turned, heq, hturned⟩ := turned_step hpos hs call
    cases heq.symm.trans hstep
    exact recent_turn ih hs hok hturned.turn

/-- In every run map and list are consistent, every call returns, and a handle is for the allocation that is asked for. When
all hits are at the front, a key that leaves for another one is, of those that stay, the one whose last request is longest
ago. -/
theorem ipc_cache_evicts_oldest (hpos : 0 < threshold) :
    (∀ history s, Run (fun _ _ => True) threshold history s → Consistent threshold s ∧ ∀ call, ∃ s' reply,
      s.step threshold call = some (s', reply) ∧ ∀ driver context device ptr memId entry,
        call = .get driver context device ptr memId → reply = .value entry → entry.handle = ⟨ptr, memId⟩) ∧
    ∀ history s, Run HitsFront threshold history s → ∀ driver context device ptr memId s' reply,
      s.get threshold driver context device ptr memId = some (s', reply) →
        ∀ k ∈ s.lruOrder, k ∉ s'.lruOrder → k ≠ ptr → ∀ k' ∈ s'.lruOrder, k' ≠ ptr →
          history.idxOf k' < history.idxOf k := by
  constructor
  · intro history s hrun
    have hs := consistent_of_run hpos hrun
    refine ⟨hs, fun call => ?_⟩
    obtain ⟨⟨s', reply⟩, heq, hturned⟩ := turned_step hpos hs call
    exact ⟨s', reply, heq, hturned.value⟩
  · intro history s hrun driver context device ptr memId s' reply hget k hk hgone hne k' hk' hne'
    have hrecent := recent_of_run hpos hrun
    obtain ⟨turned, heq, hturned⟩ := turned_get hpos (consistent_of_run hpos hrun) driver context device ptr memId
    cases heq.symm.trans hget
    exact hrecent.oldest hturned.turn hk hgone hne hk' hne'

/-- A request with a driver that does what it is asked for. -/
def asks (ptr memId : Nat) : IpcCall := .get ⟨fun _ => true, true⟩ 1 1 ptr memId

/-- The cache after requests of `1` and of `2`. -/
def twoHandles : IpcHandleCache := ⟨[(2, ⟨6, ⟨2, 6⟩, 1⟩), (1, ⟨5, ⟨1, 5⟩, 0⟩)], [1, 2], 2⟩

theorem run_twoHandles (hok : ∀ s call, HitsFront s call → ok s call) : Run ok 2 [2, 1] twoHandles :=
  have hfirst : Run ok 2 [1] ⟨[(1, ⟨5, ⟨1, 5⟩, 0⟩)], [1], 1⟩ := .call .empty (hok _ (asks 1 5) nofun) rfl
  .call hfirst (hok _ (asks 2 6) nofun) rfl

/-- The cache after a request of `3`. -/
def thirdHandle : IpcHandleCache := ⟨[(3, ⟨7, ⟨3, 7⟩, 2⟩), (2, ⟨6, ⟨2, 6⟩, 1⟩)], [2, 3], 3⟩

theorem get_thirdHandle : twoHandles.get 2 ⟨fun _ => true, true⟩ 1 1 3 7 = some (thirdHandle, .value ⟨7, ⟨3, 7⟩, 2⟩) :=
  rfl

/-- With room for two handles, and no hits, the first of two keys leaves for a third one. -/
theorem ipc_cache_two_keys : Run HitsFront 2 [2, 1] twoHandles ∧ [2, 1].idxOf 2 < [2, 1].idxOf 1 := by
  have hrun : Run HitsFront 2 [2, 1] twoHandles := run_twoHandles fun _ _ h => h
  exact ⟨hrun, (ipc_cache_evicts_oldest Nat.two_pos).2 _ _ hrun _ _ _ _ _ _ _ get_thirdHandle 1 (by decide) (by decide)
    (by decide) 2 (by decide) (by decide)⟩

/-- With room for two handles, the first of two keys is asked for again and then leaves for a third one, while the other one
stays. -/
theorem ipc_cache_evicts_recent : Run (fun _ _ => True) 2 [1, 2, 1] twoHandles ∧
    twoHandles.step 2 (asks 3 7) = some (thirdHandle, .value ⟨7, ⟨3, 7⟩, 2⟩) ∧ 1 ∈ twoHandles.lruOrder ∧
    1 ∉ thirdHandle.lruOrder ∧ 2 ∈ thirdHandle.lruOrder ∧ ¬[1, 2, 1].idxOf 2 < [1, 2, 1].idxOf 1 := by
  have hrun : Run (fun _ _ => True) 2 [2, 1] twoHandles := run_twoHandles fun _ _ _ => trivial
  have hhit : twoHandles.step 2 (asks 1 5) = some (twoHandles, .value ⟨5, ⟨1, 5⟩, 0⟩) := rfl
  exact ⟨.call hrun trivial hhit, get_thirdHandle, by decide⟩

end IpcHandleCache

end OneCcl
