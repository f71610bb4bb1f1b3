import OneCcl.Pmi.KvsRequest
import Mathlib.Data.List.TakeWhile
import Mathlib.Logic.Function.Basic

/-!
# The native key-value store

Every client of the native `ccl::kvs` has a socket to one server. `set` writes a record to the socket and is done with it;
`get` writes one and waits for the answer. The server serves the sockets in any order, and the records of each in theirs.

So a value is not lost on the way to the table when the strings fit their fields, and it is found there when its record, and
all other records of the key, have been served before the `get` is. The first is up to the arguments. The second is up to
the order of the calls: a client that asks while another client's record of the key is still unread may be served first
(`Careful`). In runs without such calls every `get` answers with the value of the last `set` (`kvs_get_last_set`).
-/

namespace OneCcl

open List Function

variable {requests requests' : KvsTables} {asked : Option (List UInt8)} {waiting : Bool}

/-- The tables of the server: `requests`. -/
abbrev KvsTables := List UInt8 → List UInt8 → Option (List UInt8)

/-- `put` of a value to the socket: it fills the buffer with zeros. -/
def answerValue (val : List UInt8) : List UInt8 := copyAt (replicate maxKvsLength 0) 0 val

/-- `server::make_client_request` for the modes of the tables: the new tables, and the answer if one is sent. An entry that is
not there is answered without a value, and the client's string stays empty. -/
def makeClientRequest (requests : KvsTables) (request : KvsRequest) : KvsTables × Option (List UInt8) :=
  match request.mode with
  | some .put =>
    (update requests request.name (update (requests request.name) request.key (some request.val)), none)
  | some .remove =>
    (update requests request.name (update (requests request.name) request.key none), none)
  | some .getVal =>
    match requests request.name request.key with
    | some val => (requests, some (answerValue val))
    | none => (requests, some [])
  | none => (requests, none)

/-- Clients, each with the records in its socket that the server has not read yet and whether it waits for an answer. -/
structure KvsState (ι : Type) where
  queues : ι → List (List UInt8)
  waiting : ι → Bool
  requests : KvsTables

open KvsState

/-- A client calls `set` or `get`; the library puts an entry to one of its own tables or removes it; or the server serves a
client. -/
inductive KvsAction (ι : Type) where
  | set (c : ι) (key data : List UInt8)
  | get (c : ι) (key : List UInt8)
  | internal (c : ι) (remove : Bool) (name key val : List UInt8)
  | serve (c : ι)

/-- What comes back: `set` returned or `get` waits, a call threw, or a `get` returned. -/
inductive KvsReply where
  | quiet
  | thrown
  | returned (value : List UInt8)
  deriving DecidableEq, Repr

/-- The table of `ccl::kvs`: the letters of `USER_DATA`. -/
def userData : List UInt8 := [85, 83, 69, 82, 95, 68, 65, 84, 65]

section

variable {ι : Type} [DecidableEq ι]

def KvsState.start : KvsState ι := ⟨fun _ => [], fun _ => false, fun _ _ => none⟩

namespace KvsState

variable (s : KvsState ι) (c : ι)

/-- A record is written to the socket of the client. -/
def send (record : List UInt8) : KvsState ι :=
  { s with queues := update s.queues c (s.queues c ++ [record]) }

/-- `native_kvs_impl::set`. The status of `kvs_set_value` is not looked at. -/
def set (key data : List UInt8) : KvsState ι × KvsReply :=
  if data = [] then (s, .thrown)
  else if data.getLast? ≠ some 0 then (s, .thrown)
  else
    match requestPut .put userData (cString key) (cString data) with
    | some record => (s.send c record, .quiet)
    | none => (s, .quiet)

/-- `native_kvs_impl::get` up to the answer. -/
def get (key : List UInt8) : KvsState ι × KvsReply :=
  match requestPut .getVal userData (cString key) [] with
  | some record => ({ s.send c record with waiting := update s.waiting c true }, .quiet)
  | none => (s, .thrown)

/-- `kvs_set_value` and `kvs_remove_name_key` of the library. -/
def internal (remove : Bool) (name key val : List UInt8) : KvsState ι × KvsReply :=
  match requestPut (if remove then .remove else .put) name key (if remove then [] else val) with
  | some record => (s.send c record, .quiet)
  | none => (s, .quiet)

def serve (record : List UInt8) (rest : List (List UInt8)) : KvsState ι × KvsReply :=
  let served := makeClientRequest s.requests (requestGet record)
  let s := { s with queues := update s.queues c rest, requests := served.1 }
  match served.2 with
  | some value => ({ s with waiting := update s.waiting c false }, .returned value)
  | none => (s, .quiet)

/-- A step of the clients and the server. A client that waits does nothing else. -/
def step : KvsAction ι → Option (KvsState ι × KvsReply)
  | .set c key data => if s.waiting c then none else some (s.set c key data)
  | .get c key => if s.waiting c then none else some (s.get c key)
  | .internal c remove name key val => if s.waiting c then none else some (s.internal c remove name key val)
  | .serve c =>
    match s.queues c with
    | [] => none
    | record :: rest => some (s.serve c record rest)

end KvsState

def Touches (key record : List UInt8) : Prop :=
  (requestGet record).mode ≠ some .getVal ∧ (requestGet record).name = userData ∧ (requestGet record).key = key

/-- The strings fit, and no other client has a record of the key that the server has not read. -/
def Careful (s : KvsState ι) : KvsAction ι → Prop
  | .set c key data => Fitting key ∧ key ≠ [] ∧ (cString data).length < maxKvsLength ∧
      ∀ c' ≠ c, ∀ record ∈ s.queues c', ¬Touches key record
  | .get c key => Fitting key ∧ key ≠ [] ∧ ∀ c' ≠ c, ∀ record ∈ s.queues c', ¬Touches key record
  | .internal _ _ name key val => Fitting name ∧ name ≠ [] ∧ name ≠ userData ∧ Fitting key ∧ key ≠ [] ∧ Fitting val
  | .serve _ => True

/-- Runs in which every step meets the condition, with what came back. -/
inductive KvsRun (ok : KvsState ι → KvsAction ι → Prop) :
    KvsState ι → List (KvsAction ι × KvsReply) → KvsState ι → Prop
  | nil (s : KvsState ι) : KvsRun ok s [] s
  | cons {s s' s'' : KvsState ι} {action : KvsAction ι} {reply : KvsReply} {trace : List (KvsAction ι × KvsReply)}
    (hok : ok s action) (hstep : s.step action = some (s', reply)) (hrun : KvsRun ok s' trace s'') :
    KvsRun ok s ((action, reply) :: trace) s''

variable {s s' : KvsState ι} {action : KvsAction ι} {reply : KvsReply} {key record v : List UInt8}

/-- The lists are equal up to zeros at their ends. -/
def UpToPadding (l l' : List UInt8) : Prop := ∃ m n, l ++ replicate m 0 = l' ++ replicate n 0

/-! ## What a careful step does -/

/-- The careful steps one by one, with what the server will read. -/
inductive CarefulStep (s : KvsState ι) : KvsAction ι → KvsState ι → KvsReply → Prop
  | thrown {c : ι} {key data : List UInt8} : CarefulStep s (.set c key data) s .thrown
  | set {c : ι} {key data record : List UInt8} (hc : s.waiting c = false)
    (hrecord : requestGet record = ⟨some .put, userData, key, cString data⟩)
    (hothers : ∀ c' ≠ c, ∀ record ∈ s.queues c', ¬Touches key record) :
    CarefulStep s (.set c key data) (s.send c record) .quiet
  | get {c : ι} {key record : List UInt8} (hc : s.waiting c = false)
    (hrecord : requestGet record = ⟨some .getVal, userData, key, []⟩)
    (hothers : ∀ c' ≠ c, ∀ record ∈ s.queues c', ¬Touches key record) :
    CarefulStep s (.get c key) { s.send c record with waiting := update s.waiting c true } .quiet
  | internal {c : ι} {remove : Bool} {name key val record : List UInt8} (hc : s.waiting c = false)
    (hmode : (requestGet record).mode ≠ some .getVal) (hname : (requestGet record).name ≠ userData) :
    CarefulStep s (.internal c remove name key val) (s.send c record) .quiet
  | serve {c : ι} {record : List UInt8} {rest : List (List UInt8)} (hqueue : s.queues c = record :: rest)
    (hmode : (requestGet record).mode ≠ some .getVal) :
    CarefulStep s (.serve c)
      { s with queues := update s.queues c rest, requests := (makeClientRequest s.requests (requestGet record)).1 }
      .quiet
  | answer {c : ι} {record : List UInt8} {rest : List (List UInt8)} (hqueue : s.queues c = record :: rest)
    (hmode : (requestGet record).mode = some .getVal) :
    CarefulStep s (.serve c)
      { s with queues := update s.queues c rest, waiting := update s.waiting c false }
      (.returned (((s.requests (requestGet record).name (requestGet record).key).map answerValue).getD []))

theorem fitting_nil : Fitting [] := ⟨nofun, by decide⟩

theorem fitting_userData : Fitting userData := ⟨by simp [userData], by decide⟩

theorem cString_of_nonzero (h : ∀ b ∈ v, b ≠ 0) : cString v = v :=
  takeWhile_eq_self_iff.mpr fun b hb => decide_eq_true (h b hb)

theorem fitting_cString (h : (cString v).length < maxKvsLength) : Fitting (cString v) :=
  ⟨fun b hb => by simpa using mem_takeWhile_imp hb, h⟩

variable {c : ι}

theorem step_get (hc : s.waiting c = false) (hkey : Fitting key) (hne : key ≠ []) : ∃ record,
    requestGet record = ⟨some .getVal, userData, key, []⟩ ∧ s.step (.get c key) =
      some ({ s.send c record with waiting := update s.waiting c true }, .quiet) := by
  obtain ⟨record, hput, hget⟩ := requestGet_of_put .getVal fitting_userData hkey fitting_nil nofun hne
  refine ⟨record, hget, ?_⟩
  rw [KvsState.step, if_neg (Bool.eq_false_iff.mp hc), KvsState.get, cString_of_nonzero hkey.nonzero, hput]

theorem step_set (hc : s.waiting c = false) (hkey : Fitting key) (hne : key ≠ []) (hv : Fitting v) : ∃ record,
    requestGet record = ⟨some .put, userData, key, v⟩ ∧
      s.step (.set c key (v ++ [0])) = some (s.send c record, .quiet) := by
  obtain ⟨record, hput, hget⟩ := requestGet_of_put .put fitting_userData hkey hv nofun hne
  refine ⟨record, hget, ?_⟩
  rw [KvsState.step, if_neg (Bool.eq_false_iff.mp hc), KvsState.set, if_neg (by simp), if_neg (by simp),
    cString_of_nonzero hkey.nonzero, cString_append hv.nonzero, hput]

theorem carefulStep_of_serve {rest : List (List UInt8)} (hqueue : s.queues c = record :: rest) :
    CarefulStep s (.serve c) (s.serve c record rest).1 (s.serve c record rest).2 := by
  have hanswer := CarefulStep.answer (s := s) hqueue
  have hserve := CarefulStep.serve (s := s) hqueue
  unfold serve makeClientRequest at *
  match hmode : (requestGet record).mode with
  | none | some .put | some .remove =>
    rw [hmode] at hserve
    exact hserve nofun
  | some .getVal =>
    have hanswer := hanswer hmode
    cases hval : s.requests (requestGet record).name (requestGet record).key with
    | none | some val =>
      rw [hval] at hanswer
      exact hanswer

/-- What a careful step does. -/
theorem carefulStep_of_step (hok : Careful s action) (h : s.step action = some (s', reply)) :
    CarefulStep s action s' reply := by
  cases action with
  | set c key data =>
    obtain ⟨hkey, hne, hdata, hothers⟩ := hok
    obtain ⟨record, hput, hget⟩ := requestGet_of_put .put fitting_userData hkey (fitting_cString hdata) nofun hne
    rw [step] at h
    split at h
    · cases h
    · next hc =>
      rw [KvsState.set, cString_of_nonzero hkey.nonzero, hput] at h
      split at h
      · cases h
        exact .thrown
      · split at h
        · cases h
          exact .thrown
        · cases h
          exact .set (Bool.eq_false_iff.mpr hc) hget hothers
  | get c key =>
    obtain ⟨hkey, hne, hothers⟩ := hok
    cases hc : s.waiting c with
    | true =>
      rw [step, if_pos hc] at h
      cases h
    | false =>
      obtain ⟨record, hget, hstep⟩ := step_get hc hkey hne
      cases hstep.symm.trans h
      exact .get hc hget hothers
  | internal c remove name key val =>
    obtain ⟨hname, hn, huser, hkey, hk, hval⟩ := hok
    have hval' : Fitting (if remove then [] else val) := by
      split
      · exact fitting_nil
      · exact hval
    obtain ⟨record, hput, hget⟩ := requestGet_of_put (if remove then .remove else .put) hname hkey hval' hn hk
    rw [step] at h
    split at h
    · cases h
    · next hc =>
      rw [internal, hput] at h
      cases h
      refine .internal (Bool.eq_false_iff.mpr hc) ?_ ?_
      · rw [hget]
        cases remove <;> exact nofun
      · rw [hget]
        exact huser
  | serve c =>
    rw [step] at h
    split at h
    · cases h
    · next record rest hqueue =>
      obtain ⟨rfl, rfl⟩ := Prod.mk.inj (Option.some.inj h)
      exact carefulStep_of_serve hqueue

/-! ## The entry of a key -/

theorem makeClientRequest_of_not_touches (h : ¬Touches key record) :
    (makeClientRequest requests (requestGet record)).1 userData key = requests userData key := by
  have hupdate : ∀ val : Option (List UInt8), (requestGet record).mode ≠ some .getVal →
      update requests (requestGet record).name
        (update (requests (requestGet record).name) (requestGet record).key val) userData key =
      requests userData key := by
    intro val hmode
    by_cases hname : userData = (requestGet record).name
    · have hkey : key ≠ (requestGet record).key := fun hkey => h ⟨hmode, hname.symm, hkey.symm⟩
      rw [← hname, update_self, update_of_ne hkey]
    · rw [update_of_ne hname]
  unfold makeClientRequest
  match hmode : (requestGet record).mode with
  | none => rfl
  | some .put => exact hupdate _ (hmode ▸ nofun)
  | some .remove => exact hupdate _ (hmode ▸ nofun)
  | some .getVal => cases requests (requestGet record).name (requestGet record).key <;> rfl

theorem makeClientRequest_congr (h : requests userData key = requests' userData key) :
    (makeClientRequest requests (requestGet record)).1 userData key =
      (makeClientRequest requests' (requestGet record)).1 userData key := by
  by_cases ht : Touches key record
  · obtain ⟨hmode, hname, hkey⟩ := ht
    unfold makeClientRequest
    match hm : (requestGet record).mode with
    | none => exact h
    | some .put => simp only [hname, hkey, update_self]
    | some .remove => simp only [hname, hkey, update_self]
    | some .getVal => exact absurd hm hmode
  · rw [makeClientRequest_of_not_touches ht, makeClientRequest_of_not_touches ht, h]

/-- The tables when the server has read the records. -/
def drained (requests : KvsTables) (queue : List (List UInt8)) : KvsTables :=
  queue.foldl (fun requests record => (makeClientRequest requests (requestGet record)).1) requests

variable {queue : List (List UInt8)}

theorem drained_congr (h : requests userData key = requests' userData key) :
    drained requests queue userData key = drained requests' queue userData key := by
  induction queue generalizing requests requests' with
  | nil => exact h
  | cons record queue ih => exact ih (makeClientRequest_congr h)

theorem drained_of_not_touches (h : ∀ record ∈ queue, ¬Touches key record) :
    drained requests queue userData key = requests userData key := by
  induction queue generalizing requests with
  | nil => rfl
  | cons record queue ih =>
    refine (ih fun r hr => h r (mem_cons_of_mem _ hr)).trans ?_
    exact makeClientRequest_of_not_touches (h record mem_cons_self)

/-- The entry has the value, once the server has read the records of the client. No other client has a record of the key. -/
structure Settled (s : KvsState ι) (c : ι) (key v : List UInt8) : Prop where
  others : ∀ c' ≠ c, ∀ record ∈ s.queues c', ¬Touches key record
  value : drained s.requests (s.queues c) userData key = some v

variable {c c' : ι}

theorem mem_queues_send {record' : List UInt8} (h : record' ∈ (s.send c record).queues c') :
    record' ∈ s.queues c' ∨ c' = c ∧ record' = record := by
  unfold send at h
  dsimp only at h
  by_cases hc : c' = c
  · subst hc
    rw [update_self, mem_append, mem_singleton] at h
    exact h.imp_right fun h => ⟨rfl, h⟩
  · rw [update_of_ne hc] at h
    exact .inl h

theorem drained_send : drained (s.send c record).requests ((s.send c record).queues c) =
    (makeClientRequest (drained s.requests (s.queues c)) (requestGet record)).1 := by
  simp only [send, update_self, drained, foldl_append, foldl_cons, foldl_nil]

theorem Settled.send (h : Settled s c key v) (hr : ¬Touches key record) : Settled (s.send c' record) c key v := by
  constructor
  · intro c'' hc record' hmem
    rcases mem_queues_send hmem with hmem | ⟨-, rfl⟩
    · exact h.others c'' hc record' hmem
    · exact hr
  · by_cases hc : c = c'
    · subst hc
      rw [drained_send, makeClientRequest_of_not_touches hr, h.value]
    · have hqueue : (s.send c' record).queues c = s.queues c := update_of_ne hc _ _
      rw [hqueue]
      exact h.value

theorem Settled.serve (h : Settled s c key v) (hqueue : s.queues c' = record :: queue)
    (hreq : requests userData key = (makeClientRequest s.requests (requestGet record)).1 userData key)
    {waiting : ι → Bool} : Settled ⟨update s.queues c' queue, waiting, requests⟩ c key v := by
  constructor
  · intro c'' hc record' hmem
    dsimp only at hmem
    by_cases hc' : c'' = c'
    · subst hc'
      rw [update_self] at hmem
      exact h.others c'' hc record' (hqueue ▸ mem_cons_of_mem _ hmem)
    · rw [update_of_ne hc'] at hmem
      exact h.others c'' hc record' hmem
  · dsimp only
    by_cases hc : c = c'
    · subst hc
      have hvalue := h.value
      rw [hqueue] at hvalue
      rw [update_self]
      exact (drained_congr hreq).trans hvalue
    · have hnot := h.others c' (Ne.symm hc) record (hqueue ▸ mem_cons_self)
      rw [makeClientRequest_of_not_touches hnot] at hreq
      rw [update_of_ne hc]
      exact (drained_congr hreq).trans h.value

/-- **A step leaves the value in place**, unless it sets the key. -/
theorem settled_step (h : Settled s c key v) (hstep : CarefulStep s action s' reply)
    (hno : ∀ c' data, (action, reply) ≠ (.set c' key data, .quiet)) : Settled s' c key v := by
  cases hstep with
  | thrown => exact h
  | @set c' key' data record _ hrecord _ =>
    refine h.send fun ht => ?_
    have hkey : key' = key := by simpa only [hrecord] using ht.2.2
    exact hno c' data (by rw [hkey])
  | @get c' key' record _ hrecord _ =>
    have hsend : Settled (s.send c' record) c key v := h.send fun ht => ht.1 (by rw [hrecord])
    exact ⟨hsend.others, hsend.value⟩
  | internal _ _ hname => exact h.send fun ht => hname ht.2.1
  | serve hqueue _ => exact h.serve hqueue rfl
  | @answer c' record rest hqueue hmode =>
    refine h.serve hqueue ?_
    rw [makeClientRequest_of_not_touches fun ht => ht.1 hmode]

/-! ## Clients that wait -/

/-- Nothing in the socket asks for an answer. -/
def NoGet (queue : List (List UInt8)) : Prop := ∀ record ∈ queue, (requestGet record).mode ≠ some .getVal

/-- A client at work, or one that waits for the answer to its last record. -/
inductive Client : Bool → List (List UInt8) → Option (List UInt8) → Prop
  | works {queue : List (List UInt8)} (hqueue : NoGet queue) : Client false queue none
  | asks {queue : List (List UInt8)} {record key : List UInt8} (hqueue : NoGet queue)
    (hrecord : requestGet record = ⟨some .getVal, userData, key, []⟩) : Client true (queue ++ [record]) (some key)

theorem NoGet.append (h : NoGet queue) (hr : (requestGet record).mode ≠ some .getVal) : NoGet (queue ++ [record]) := by
  intro record' hmem
  rcases mem_append.mp hmem with hmem | hmem
  · exact h record' hmem
  · rw [mem_singleton.mp hmem]
    exact hr

theorem Client.of_works (h : Client false queue asked) : NoGet queue := by
  cases h with
  | works hqueue => exact hqueue

theorem Client.ne_nil (h : Client waiting queue (some key)) : queue ≠ [] := by
  cases h
  exact append_ne_nil_of_right_ne_nil _ (cons_ne_nil _ _)

theorem Client.cases_cons (h : Client waiting (record :: queue) asked) :
    ((requestGet record).mode ≠ some .getVal ∧ Client waiting queue asked) ∨
      ∃ key, requestGet record = ⟨some .getVal, userData, key, []⟩ ∧ waiting = true ∧ queue = [] ∧ asked = some key := by
  generalize hq : record :: queue = q at h
  cases h with
  | works hqueue =>
    subst hq
    exact .inl ⟨hqueue record mem_cons_self, .works fun r hr => hqueue r (mem_cons_of_mem _ hr)⟩
  | @asks queue' last key hqueue hlast =>
    cases queue' with
    | nil =>
      obtain ⟨rfl, rfl⟩ := cons.inj hq
      exact .inr ⟨key, hlast, rfl, rfl, rfl⟩
    | cons first queue' =>
      obtain ⟨rfl, rfl⟩ := cons.inj hq
      exact .inl ⟨hqueue record mem_cons_self, .asks (fun r hr => hqueue r (mem_cons_of_mem _ hr)) hlast⟩

/-- A client that waits has asked last, and stays so until it is answered. -/
theorem client_step (h : Client (s.waiting c) (s.queues c) asked) (hstep : CarefulStep s action s' reply) :
    ∃ asked', Client (s'.waiting c) (s'.queues c) asked' ∧
      ((∀ value, (action, reply) ≠ (.serve c, .returned value)) → ∀ key, asked = some key → asked' = some key) := by
  have hsend : ∀ {c' record}, s.waiting c' = false → (requestGet record).mode ≠ some .getVal →
      ∃ asked', Client (s.waiting c) ((s.send c' record).queues c) asked' ∧ ∀ key, asked = some key → asked' = some key := by
    intro c' record hc' hmode
    unfold send
    dsimp only
    by_cases hc : c = c'
    · subst hc
      rw [hc'] at h
      rw [hc', update_self]
      refine ⟨none, .works (h.of_works.append hmode), ?_⟩
      cases h
      exact nofun
    · rw [update_of_ne hc]
      exact ⟨asked, h, fun _ hkey => hkey⟩
  cases hstep with
  | thrown => exact ⟨asked, h, fun _ _ hkey => hkey⟩
  | set hc hrecord _ =>
    obtain ⟨asked', hclient, hkey⟩ := hsend hc (by rw [hrecord]; exact nofun)
    exact ⟨asked', hclient, fun _ => hkey⟩
  | internal hc hmode _ =>
    obtain ⟨asked', hclient, hkey⟩ := hsend hc hmode
    exact ⟨asked', hclient, fun _ => hkey⟩
  | @get c' key record hc' hrecord _ =>
    unfold send
    dsimp only
    by_cases hc : c = c'
    · subst hc
      rw [hc'] at h
      rw [update_self, update_self]
      refine ⟨some key, .asks h.of_works hrecord, ?_⟩
      cases h
      exact nofun
    · rw [update_of_ne hc, update_of_ne hc]
      exact ⟨asked, h, fun _ _ hkey => hkey⟩
  | @serve c' record rest hqueue hmode =>
    dsimp only
    by_cases hc : c = c'
    · subst hc
      rw [hqueue] at h
      rw [update_self]
      rcases h.cases_cons with ⟨-, hrest⟩ | ⟨key, hget, -, -, -⟩
      · exact ⟨asked, hrest, fun _ _ hkey => hkey⟩
      · exact absurd (congrArg KvsRequest.mode hget) hmode
    · rw [update_of_ne hc]
      exact ⟨asked, h, fun _ _ hkey => hkey⟩
  | @answer c' record rest hqueue hmode =>
    dsimp only
    by_cases hc : c = c'
    · subst hc
      rw [hqueue] at h
      rw [update_self, update_self]
      rcases h.cases_cons with ⟨hne, -⟩ | ⟨key, -, -, rfl, -⟩
      · exact absurd hmode hne
      · exact ⟨none, .works nofun, fun hno => absurd rfl (hno _)⟩
    · rw [update_of_ne hc, update_of_ne hc]
      exact ⟨asked, h, fun _ _ hkey => hkey⟩

/-! ## Runs -/

variable {trace trace' : List (KvsAction ι × KvsReply)}

theorem kvsRun_append {ok : KvsState ι → KvsAction ι → Prop} (h : KvsRun ok s (trace ++ trace') s') :
    ∃ m, KvsRun ok s trace m ∧ KvsRun ok m trace' s' := by
  induction trace generalizing s with
  | nil => exact ⟨s, .nil s, h⟩
  | cons entry trace ih =>
    cases h with
    | cons hok hstep hrun =>
      obtain ⟨m, hm, hrest⟩ := ih hrun
      exact ⟨m, .cons hok hstep hm, hrest⟩

/-- A value stays settled while no `set` of its key returns. -/
theorem settled_run (h : Settled s c key v) (hrun : KvsRun Careful s trace s')
    (hno : ∀ c' data, (.set c' key data, .quiet) ∉ trace) : Settled s' c key v := by
  induction hrun with
  | nil => exact h
  | cons hok hstep _ ih =>
    refine ih (settled_step h (carefulStep_of_step hok hstep) fun c' data heq => ?_) fun c' data hmem => ?_
    · exact hno c' data (heq ▸ mem_cons_self)
    · exact hno c' data (mem_cons_of_mem _ hmem)

/-- The same over a run. -/
theorem client_run (h : Client (s.waiting c) (s.queues c) asked) (hrun : KvsRun Careful s trace s') :
    ∃ asked', Client (s'.waiting c) (s'.queues c) asked' ∧
      ((∀ value, (.serve c, .returned value) ∉ trace) → ∀ key, asked = some key → asked' = some key) := by
  induction hrun generalizing asked with
  | nil => exact ⟨asked, h, fun _ _ hkey => hkey⟩
  | cons hok hstep _ ih =>
    obtain ⟨asked', hclient, hstays⟩ := client_step h (carefulStep_of_step hok hstep)
    obtain ⟨asked'', hclient', hstays'⟩ := ih hclient
    refine ⟨asked'', hclient', fun hno key hkey => ?_⟩
    refine hstays' (fun value hmem => hno value (mem_cons_of_mem _ hmem)) key (hstays (fun value heq => ?_) key hkey)
    exact hno value (heq ▸ mem_cons_self)

theorem client_of_run (hrun : KvsRun Careful .start trace s) (c : ι) : ∃ asked, Client (s.waiting c) (s.queues c) asked := by
  obtain ⟨asked, hclient, -⟩ := client_run (s := .start) (c := c) (.works nofun) hrun
  exact ⟨asked, hclient⟩

theorem settled_set (hstep : CarefulStep s (.set c key (v ++ [0])) s' .quiet) (hv : ∀ b ∈ v, b ≠ 0) : Settled s' c key v := by
  cases hstep with
  | @set _ _ _ record hc hrecord hothers =>
    rw [cString_append hv] at hrecord
    constructor
    · intro c' hc' record' hmem
      rcases mem_queues_send hmem with hmem | ⟨rfl, -⟩
      · exact hothers c' hc' record' hmem
      · exact absurd rfl hc'
    · rw [drained_send, makeClientRequest, hrecord]
      simp only [update_self]

theorem Settled.takeOver (h : Settled s c key v) (hothers : ∀ c'' ≠ c', ∀ record ∈ s.queues c'', ¬Touches key record) :
    Settled s c' key v := by
  refine ⟨hothers, ?_⟩
  by_cases hc : c' = c
  · subst hc
    exact h.value
  · have hvalue := h.value
    rw [drained_of_not_touches (hothers c (Ne.symm hc))] at hvalue
    rw [drained_of_not_touches (h.others c' hc), hvalue]

theorem answer_eq (h : Settled s c key v) (hclient : Client (s.waiting c) (s.queues c) (some key))
    (hstep : CarefulStep s (.serve c) s' (.returned record)) : record = answerValue v := by
  cases hstep with
  | @answer _ last rest hqueue hmode =>
    have hvalue := h.value
    rw [hqueue] at hclient hvalue
    rcases hclient.cases_cons with ⟨hne, -⟩ | ⟨key', hget, -, rfl, hkey⟩
    · exact absurd hmode hne
    · cases hkey
      have hlast : ∀ record ∈ [last], ¬Touches key record := by
        intro record hmem ht
        rw [mem_singleton.mp hmem] at ht
        exact ht.1 hmode
      rw [drained_of_not_touches hlast] at hvalue
      rw [hget, hvalue]
      rfl

theorem answered (hclient : Client (s.waiting c) (s.queues c) (some key)) : ∃ n s' value,
    KvsRun Careful s (replicate n (.serve c, .quiet) ++ [(.serve c, .returned value)]) s' := by
  generalize hq : s.queues c = queue at hclient
  induction queue generalizing s with
  | nil => exact absurd rfl hclient.ne_nil
  | cons record queue ih =>
    have hserve : s.step (.serve c) = some (s.serve c record queue) := by rw [step, hq]
    have hstep := carefulStep_of_serve hq
    generalize hs' : (s.serve c record queue).1 = s' at hstep
    generalize hr : (s.serve c record queue).2 = reply at hstep
    have hserve : s.step (.serve c) = some (s', reply) := by rw [hserve, ← hs', ← hr]
    cases hstep with
    | serve hqueue hmode =>
      obtain ⟨rfl, rfl⟩ := cons.inj (hq.symm.trans hqueue)
      rcases hclient.cases_cons with ⟨-, hrest⟩ | ⟨key', hget, -⟩
      · let s' : KvsState ι :=
          { s with
            queues := update s.queues c queue, requests := (makeClientRequest s.requests (requestGet record)).1 }
        obtain ⟨n, s'', value, hrun⟩ := @ih s' (update_self _ _ _) hrest
        exact ⟨n + 1, s'', value, .cons trivial hserve hrun⟩
      · exact absurd (congrArg KvsRequest.mode hget) hmode
    | answer hqueue hmode => exact ⟨0, _, _, .cons trivial hserve (.nil _)⟩

theorem upToPadding_answerValue (v : List UInt8) : UpToPadding (answerValue v) (v ++ [0]) := by
  refine ⟨1, maxKvsLength - v.length, ?_⟩
  have hanswer : answerValue v = v ++ replicate (maxKvsLength - v.length) 0 := by
    simp [answerValue, copyAt]
  rw [hanswer, append_assoc, append_assoc, replicate_append_replicate, Nat.add_comm,
    replicate_add]
  rfl

/-- **The native store.** In a run of careful steps a client sets the key, and no other `set` of the key returns. Then a `get`
of the key does not throw, it is answered when the server has read the client's records, and the answer is the value. -/
theorem kvs_get_last_set {s₁ s₂ : KvsState ι} {before between during : List (KvsAction ι × KvsReply)}
    (hset : KvsRun Careful .start (before ++ (.set c key (v ++ [0]), .quiet) :: between) s) (hv : ∀ b ∈ v, b ≠ 0)
    (hbetween : ∀ c data, (.set c key data, .quiet) ∉ between) (hok : Careful s (.get c' key))
    (hget : s.step (.get c' key) = some (s₁, reply)) (hduring : KvsRun Careful s₁ during s₂)
    (hno : ∀ c data, (.set c key data, .quiet) ∉ during) (hwaits : ∀ value, (.serve c', .returned value) ∉ during) :
    reply = .quiet ∧
    (∃ n s₃ value, KvsRun Careful s₂ (replicate n (.serve c', .quiet) ++ [(.serve c', .returned value)]) s₃) ∧
    ∀ s₃ value, s₂.step (.serve c') = some (s₃, .returned value) → UpToPadding value (v ++ [0]) := by
  obtain ⟨asked, hworks⟩ := client_of_run hset c'
  obtain ⟨m, hbefore, hrest⟩ := kvsRun_append hset
  have hsettled : Settled s c key v := by
    cases hrest with
    | cons hok hstep hrun => exact settled_run (settled_set (carefulStep_of_step hok hstep) hv) hrun hbetween
  have hasks := carefulStep_of_step hok hget
  have hsettled₁ : Settled s₁ c' key v := by
    refine settled_step (hsettled.takeOver hok.2.2) hasks fun c data heq => ?_
    cases congrArg Prod.fst heq
  have hclient₁ : Client (s₁.waiting c') (s₁.queues c') (some key) ∧ reply = .quiet := by
    cases hasks with
    | @get _ _ record hc hrecord _ =>
      rw [hc] at hworks
      refine ⟨?_, rfl⟩
      simp only [send, update_self]
      exact .asks hworks.of_works hrecord
  obtain ⟨asked₂, hclient₂, hstays⟩ := client_run hclient₁.1 hduring
  rw [hstays hwaits key rfl] at hclient₂
  have hsettled₂ := settled_run hsettled₁ hduring hno
  refine ⟨hclient₁.2, answered hclient₂, fun s₃ value hserve => ?_⟩
  rw [answer_eq hsettled₂ hclient₂ (carefulStep_of_step trivial hserve)]
  exact upToPadding_answerValue v

end

/-! ## Examples of runs -/

/-- The key `k`. -/
def keyK : List UInt8 := [107]

theorem fitting_keyK : Fitting keyK := ⟨by simp [keyK], by decide⟩

theorem fitting_x : Fitting [120] := ⟨by simp, by decide⟩

/-- One client sets the key to the letter `x`. The server reads the record, and another client asks. -/
theorem kvs_set_serve_get : ∃ s s₁ : KvsState Bool,
    KvsRun Careful .start ([] ++ (.set false keyK ([120] ++ [0]), .quiet) :: [(.serve false, .quiet)]) s ∧
    Careful s (.get true keyK) ∧ s.step (.get true keyK) = some (s₁, .quiet) ∧
    (∃ n s₃ value, KvsRun Careful s₁ (replicate n (.serve true, .quiet) ++ [(.serve true, .returned value)]) s₃) ∧
    ∀ s₃ value, s₁.step (.serve true) = some (s₃, .returned value) → UpToPadding value ([120] ++ [0]) := by
  obtain ⟨record, hrecord, hset⟩ := step_set (s := .start) (c := false) rfl fitting_keyK nofun fitting_x
  let s : KvsState Bool := ((start.send false record).serve false record []).1
  have hserve : (start.send false record).step (.serve false) = some (s, .quiet) := by
    simp [s, step, serve, send, start, makeClientRequest, hrecord]
  have hempty : ∀ c, s.queues c = [] := by
    intro c
    cases c <;> simp [s, serve, send, start, makeClientRequest, hrecord]
  have hwaiting : s.waiting true = false := by
    simp [s, serve, send, start, makeClientRequest, hrecord]
  have hrun : KvsRun Careful .start ([] ++ (.set false keyK ([120] ++ [0]), .quiet) :: [(.serve false, .quiet)]) s :=
    .cons ⟨fitting_keyK, nofun, by decide, fun _ _ _ hmem => absurd hmem not_mem_nil⟩ hset
      (.cons trivial hserve (.nil s))
  have hok : Careful s (.get true keyK) := by
    refine ⟨fitting_keyK, nofun, fun c _ record hmem => ?_⟩
    rw [hempty c] at hmem
    cases hmem
  obtain ⟨record', -, hget⟩ := step_get hwaiting fitting_keyK nofun
  have hresult := kvs_get_last_set hrun fitting_x.nonzero (by simp) hok hget (.nil _) (by simp) (by simp)
  exact ⟨s, _, hrun, hok, hget, hresult.2⟩

theorem not_upToPadding_nil {l : List UInt8} {b : UInt8} (hb : b ∈ l) (hne : b ≠ 0) : ¬UpToPadding [] l := by
  rintro ⟨m, n, h⟩
  have hmem : b ∈ replicate m (0 : UInt8) := by
    rw [← nil_append (replicate m 0), h]
    exact mem_append_left _ hb
  exact hne (eq_of_mem_replicate hmem)

theorem kvsRun_get_nothing {ι : Type} [DecidableEq ι] {s : KvsState ι} {c : ι} (hc : s.waiting c = false)
    (hqueue : s.queues c = []) (hnone : s.requests userData keyK = none) :
    ∃ s', KvsRun (fun _ _ => True) s [(.get c keyK, .quiet), (.serve c, .returned [])] s' := by
  obtain ⟨record, hrecord, hget⟩ := step_get hc fitting_keyK nofun
  let asked : KvsState ι := { s.send c record with waiting := update s.waiting c true }
  have hserve : asked.step (.serve c) = some ((asked.serve c record []).1, .returned []) := by
    simp [asked, step, serve, send, hqueue, makeClientRequest, hrecord, hnone]
  exact ⟨_, .cons trivial hget (.cons trivial hserve (.nil _))⟩

/-- A value of 131 letters is dropped without a word, and the client's own `get` finds nothing; and a `get` that another
client calls after the `set` may be served before it. -/
theorem kvs_set_not_seen : ((∃ s : KvsState Unit, KvsRun (fun _ _ => True) .start
        [(.set () keyK (replicate 131 120 ++ [0]), .quiet), (.get () keyK, .quiet), (.serve (), .returned [])] s) ∧
      ¬UpToPadding [] (replicate 131 120 ++ [0])) ∧ (∃ s : KvsState Bool, KvsRun (fun _ _ => True) .start
        [(.set false keyK [120, 0], .quiet), (.get true keyK, .quiet), (.serve true, .returned [])] s) ∧
      ¬UpToPadding [] [120, 0] := by
  refine ⟨⟨?_, ?_⟩, ?_, ?_⟩
  · have hset : (start : KvsState Unit).step (.set () keyK (replicate 131 120 ++ [0])) =
        some (.start, .quiet) := by
      have hvalue : cString (replicate 131 120 ++ [0]) = replicate 131 120 :=
        cString_append fun b hb => eq_of_mem_replicate hb ▸ by decide
      have hlong : requestPut .put userData (cString keyK) (replicate 131 120) = none :=
        requestPut_of_long (by rw [length_replicate]; decide)
      rw [KvsState.step, KvsState.set, hvalue, hlong]
      rfl
    obtain ⟨s, hrun⟩ := kvsRun_get_nothing (s := start) (c := ()) rfl rfl rfl
    exact ⟨s, .cons trivial hset hrun⟩
  · exact not_upToPadding_nil (mem_append_left _ (mem_replicate.mpr ⟨by decide, rfl⟩)) (by decide)
  · obtain ⟨record, -, hset⟩ := step_set (s := .start) (c := false) rfl fitting_keyK nofun fitting_x
    obtain ⟨s, hrun⟩ := kvsRun_get_nothing (s := start.send false record) (c := true) rfl rfl rfl
    exact ⟨s, .cons trivial hset hrun⟩
  · exact not_upToPadding_nil mem_cons_self (by decide)

end OneCcl
