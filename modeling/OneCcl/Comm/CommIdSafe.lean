import OneCcl.Comm.CommId

/-!
# Ids of live communicators

As long as every ATL communicator that is constructed finds an id, `comm_count` is the number of communicators of a
process and the map of free ids lives as long as one of them does. So an id that a communicator has stays taken, and the
ids of a process are different.

A construction that finds no id takes one off `comm_count` that it has not put on. A communicator of the user is six ATL
communicators: the base, which the topology manager keeps, the copy of it, and four sub-communicators. So after six such
constructions the transport can go while a communicator is still there, and with a new map of free ids its ids are given out
again.
-/

namespace OneCcl

open List AtlBaseComm CommProcess

namespace CommProcess

/-- What a process keeps. -/
structure Inv (p : CommProcess) : Prop where
  count : p.commCount = p.comms.length
  transport : p.transport = true ↔ p.comms ≠ []
  nodup : p.ids.Nodup
  held : ∀ id ∈ p.ids, p.free id = false
  on : ∀ r ∈ p.reserved, ∃ c ∈ p.comms, c.name = r.on

variable {p : CommProcess}

theorem Inv.ids_of_no_transport (h : p.Inv) (ht : p.transport = false) : p.comms = [] ∧ p.reserved = [] := by
  have hcomms : p.comms = [] := by
    by_contra hne
    rw [h.transport.mpr hne] at ht
    cases ht
  refine ⟨hcomms, eq_nil_iff_forall_not_mem.mpr fun r hr => ?_⟩
  obtain ⟨c, hc, -⟩ := h.on r hr
  rw [hcomms] at hc
  cases hc

theorem Inv.held_initTransport (h : p.Inv) : ∀ id ∈ p.ids, p.initTransport.free id = false := by
  intro id hid
  unfold initTransport
  split
  · exact h.held id hid
  next ht =>
    obtain ⟨hcomms, hres⟩ := h.ids_of_no_transport (Bool.eq_false_iff.mpr ht)
    rw [ids, hcomms, hres] at hid
    cases hid

theorem initTransport_fields : p.initTransport.commCount = p.commCount ∧ p.initTransport.comms = p.comms ∧
    p.initTransport.reserved = p.reserved ∧ p.initTransport.transport = true := by
  unfold initTransport
  split
  next ht => exact ⟨rfl, rfl, rfl, ht⟩
  next => exact ⟨rfl, rfl, rfl, rfl⟩

theorem ids_construct (name id : Nat) : (p.construct name id).ids.Perm (id :: p.ids) := by
  have hids : (p.construct name id).ids =
      p.comms.filterMap commId ++ id :: p.reserved.map ReservedId.id := by
    show (p.comms ++ [AtlBaseComm.mk name (some id)]).filterMap AtlBaseComm.commId ++ _ = _
    rw [filterMap_append, append_assoc]
    rfl
  rw [hids]
  exact perm_middle

theorem held_acquire {p' : CommProcess} {id : Nat} (hheld : ∀ x ∈ p.ids, p.free x = false) (hnodup : p.ids.Nodup)
    (hfree : p.free id = true) (hids : p'.ids.Perm (id :: p.ids)) (hp' : p'.free = Function.update p.free id false) :
    p'.ids.Nodup ∧ ∀ x ∈ p'.ids, p'.free x = false := by
  have hnew : id ∉ p.ids := by
    intro hmem
    rw [hheld id hmem] at hfree
    cases hfree
  refine ⟨hids.nodup_iff.mpr (nodup_cons.mpr ⟨hnew, hnodup⟩), fun x hx => ?_⟩
  rw [hp']
  by_cases hxid : x = id
  · rw [hxid, Function.update_self]
  · rw [Function.update_of_ne hxid]
    rcases mem_cons.mp (hids.mem_iff.mp hx) with hx | hx
    · exact absurd hx hxid
    · exact hheld x hx

theorem Inv.construct_inited (h : p.Inv) {name id : Nat} (hfree : p.initTransport.free id = true) :
    (p.initTransport.construct name id).Inv := by
  obtain ⟨hcount, hcomms, hres, ht⟩ := @initTransport_fields p
  have hids : p.initTransport.ids = p.ids := by rw [ids, ids, hcomms, hres]
  obtain ⟨hnodup, hheld⟩ := held_acquire (hids ▸ h.held_initTransport) (hids ▸ h.nodup) hfree (ids_construct name id) rfl
  refine ⟨?_, ?_, hnodup, hheld, fun r hr => ?_⟩
  · show p.initTransport.commCount + 1 = (p.initTransport.comms ++ [_]).length
    rw [hcount, hcomms, h.count, length_append, length_singleton]
  · show p.initTransport.transport = true ↔ p.initTransport.comms ++ [_] ≠ []
    simp [ht]
  · obtain ⟨c, hc, hon⟩ := h.on r (hres ▸ hr)
    exact ⟨c, mem_append_left _ (hcomms ▸ hc), hon⟩

theorem Inv.reserve (h : p.Inv) {name id on : Nat} (hfree : p.free id = true) (hon : ∃ c ∈ p.comms, c.name = on) :
    (p.reserve name id on).Inv := by
  have hids : (p.reserve name id on).ids.Perm (id :: p.ids) := by
    have heq : (p.reserve name id on).ids = p.ids ++ [id] := by
      show p.comms.filterMap commId ++ (p.reserved ++ [ReservedId.mk name id on]).map ReservedId.id = _
      rw [map_append, ← append_assoc]
      rfl
    rw [heq]
    exact perm_append_singleton id p.ids
  obtain ⟨hnodup, hheld⟩ := held_acquire h.held h.nodup hfree hids rfl
  refine ⟨h.count, h.transport, hnodup, hheld, fun r hr => ?_⟩
  rcases mem_append.mp hr with hr | hr
  · exact h.on r hr
  · rw [mem_singleton.mp hr]
    exact hon

/-! ### Copies -/

variable {l : List AtlBaseComm} {i : Nat} {c base : AtlBaseComm}

theorem filterMap_set_none {id : Nat} (hc : l[i]? = some c) (hid : c.commId = some id) :
    (l.filterMap commId).Perm (id :: (l.set i { c with commId := none }).filterMap commId) := by
  induction l generalizing i with
  | nil => simp at hc
  | cons x l ih =>
    cases i with
    | zero =>
      obtain rfl : x = c := by simpa using hc
      rw [filterMap_cons_some hid, set_cons_zero, filterMap_cons_none rfl]
    | succ i =>
      have hrest := ih (by simpa using hc)
      rw [set_cons_succ]
      cases hx : x.commId with
      | none =>
        rw [filterMap_cons_none hx, filterMap_cons_none hx]
        exact hrest
      | some y =>
        rw [filterMap_cons_some hx, filterMap_cons_some hx]
        exact (hrest.cons y).trans (List.Perm.swap ..)

theorem set_self_of_get (hc : l[i]? = some c) : l.set i c = l := by
  obtain ⟨hi, rfl⟩ := List.getElem?_eq_some_iff.mp hc
  exact set_getElem_self hi

theorem mem_names_set {x : Option Nat} (hc : l[i]? = some c) {name : Nat}
    (h : ∃ d ∈ l, d.name = name) : ∃ d ∈ l.set i { c with commId := x }, d.name = name := by
  obtain ⟨d, hd, hname⟩ := h
  obtain ⟨j, hj⟩ := getElem?_of_mem hd
  by_cases hij : i = j
  · obtain ⟨hi, -⟩ := List.getElem?_eq_some_iff.mp hc
    have hdc : d = c := Option.some.inj (hj.symm.trans (hij ▸ hc))
    exact ⟨_, mem_set hi _, hdc ▸ hname⟩
  · refine ⟨d, mem_of_getElem? (i := j) ?_, hname⟩
    rw [getElem?_set_ne hij]
    exact hj

theorem Inv.internalComm (h : p.Inv) (hbase : p.comms[i]? = some base) {name id : Nat}
    {reserved : List ReservedId} (hids : (p.internalComm i base name id reserved).ids.Perm p.ids)
    (hsub : ∀ r ∈ reserved, r ∈ p.reserved) : (p.internalComm i base name id reserved).Inv := by
  have hne : p.comms ≠ [] := ne_nil_of_mem (mem_of_getElem? hbase)
  refine ⟨?_, ?_, hids.nodup_iff.mpr h.nodup, fun x hx => h.held x (hids.mem_iff.mp hx), fun r hr => ?_⟩
  · show p.commCount + 1 = (p.comms.set i _ ++ [_]).length
    rw [h.count, length_append, length_set, length_singleton]
  · show p.transport = true ↔ p.comms.set i _ ++ [_] ≠ []
    simp [h.transport.mpr hne]
  · obtain ⟨c, hc, hon⟩ := mem_names_set hbase (h.on r (hsub r hr))
    exact ⟨c, mem_append_left _ hc, hon⟩

theorem ids_internalComm_own (hbase : p.comms[i]? = some base) {name id : Nat}
    (hid : base.commId = some id) : (p.internalComm i base name id p.reserved).ids.Perm p.ids := by
  have hids : (p.internalComm i base name id p.reserved).ids =
      (p.comms.set i { base with commId := none }).filterMap AtlBaseComm.commId ++ id :: p.reserved.map ReservedId.id := by
    show (p.comms.set i { base with commId := if base.commId = some id then none else base.commId } ++
      [AtlBaseComm.mk name (some id)]).filterMap AtlBaseComm.commId ++ _ = _
    rw [if_pos hid, filterMap_append, append_assoc]
    rfl
  rw [hids]
  exact perm_middle.trans ((filterMap_set_none hbase hid).symm.append_right _)

theorem Inv.ids_internalComm_reserved (h : p.Inv) {j : Nat} (hbase : p.comms[i]? = some base)
    {r : ReservedId} (hr : p.reserved[j]? = some r) :
    (p.internalComm i base r.name r.id (p.reserved.eraseIdx j)).ids.Perm p.ids := by
  -- the reserved id is not one that a communicator has
  have hne : base.commId ≠ some r.id := by
    intro hid
    have hdisj := (nodup_append.mp h.nodup).2.2
    exact hdisj r.id (mem_filterMap.mpr ⟨base, mem_of_getElem? hbase, hid⟩) r.id
      (mem_map_of_mem (mem_of_getElem? hr)) rfl
  have hids : (p.internalComm i base r.name r.id (p.reserved.eraseIdx j)).ids =
      p.comms.filterMap commId ++ (r :: p.reserved.eraseIdx j).map ReservedId.id := by
    show (p.comms.set i { base with commId := if base.commId = some r.id then none else base.commId } ++
      [AtlBaseComm.mk r.name (some r.id)]).filterMap AtlBaseComm.commId ++ _ = _
    rw [if_neg hne, set_self_of_get hbase, filterMap_append, append_assoc]
    rfl
  rw [hids]
  obtain ⟨hj, rfl⟩ := List.getElem?_eq_some_iff.mp hr
  exact ((getElem_cons_eraseIdx_perm hj).map _).append_left _

/-! ### Destructors -/

theorem ids_destroy_sublist : (p.destroy i c).ids.Sublist p.ids :=
  ((eraseIdx_sublist p.comms i).filterMap _).append (filter_sublist.map _)

theorem Inv.not_mem_destroy (h : p.Inv) (hc : p.comms[i]? = some c) {id : Nat}
    (hid : c.commId = some id) : id ∉ (p.destroy i c).ids := by
  obtain ⟨hi, rfl⟩ := List.getElem?_eq_some_iff.mp hc
  have hperm : (id :: ((p.comms.eraseIdx i).filterMap commId ++ p.reserved.map ReservedId.id)).Perm p.ids := by
    have hcons := (getElem_cons_eraseIdx_perm hi).filterMap commId
    rw [filterMap_cons_some hid] at hcons
    exact hcons.append_right _
  have hnot := (nodup_cons.mp (hperm.nodup_iff.mpr h.nodup)).1
  intro hmem
  have hsub : (p.destroy i p.comms[i]).ids.Sublist
      ((p.comms.eraseIdx i).filterMap commId ++ p.reserved.map ReservedId.id) :=
    (List.Sublist.refl _).append (filter_sublist.map _)
  exact hnot (hsub.subset hmem)

theorem Inv.destroy (h : p.Inv) (hc : p.comms[i]? = some c) : (p.destroy i c).Inv := by
  obtain ⟨hi, -⟩ := List.getElem?_eq_some_iff.mp hc
  have hlen : (p.comms.eraseIdx i).length = p.comms.length - 1 := length_eraseIdx_of_lt hi
  have hrel : (p.release c.commId).commCount = p.commCount ∧ (p.release c.commId).transport = p.transport := by
    cases c.commId <;> exact ⟨rfl, rfl⟩
  have hcount : (p.release c.commId).dropCount.commCount = p.comms.length - 1 := by
    simp only [dropCount, hrel.1, h.count]
    rw [if_neg ((Nat.zero_lt_of_lt hi).ne')]
  have htrans : p.transport = true := h.transport.mpr (ne_nil_of_length_pos (Nat.zero_lt_of_lt hi))
  refine ⟨?_, ?_, h.nodup.sublist ids_destroy_sublist, ?_, ?_⟩
  · show (p.release c.commId).dropCount.commCount = (p.comms.eraseIdx i).length
    rw [hcount, hlen]
  · show (p.release c.commId).dropCount.transport = true ↔ p.comms.eraseIdx i ≠ []
    have hdrop : (p.release c.commId).dropCount.transport =
        (p.transport && decide ((p.release c.commId).dropCount.commCount ≠ 0)) := by
      rw [← hrel.2]
      rfl
    rw [hdrop, hcount, htrans, Bool.true_and, decide_eq_true_iff, ← hlen, ne_eq, length_eq_zero_iff]
  · intro x hx
    have hold := h.held x (ids_destroy_sublist.subset hx)
    show (p.release c.commId).free x = false
    cases hid : c.commId with
    | none => exact hold
    | some id =>
      have hne : x ≠ id := by
        rintro rfl
        exact h.not_mem_destroy hc hid hx
      show Function.update p.free id true x = false
      rw [Function.update_of_ne hne]
      exact hold
  · intro r hr
    obtain ⟨-, hany⟩ := mem_filter.mp hr
    obtain ⟨d, hd, hname⟩ := any_eq_true.mp hany
    exact ⟨d, hd, of_decide_eq_true hname⟩

end CommProcess

/-- A communicator of the process has the id, or will have it. -/
def CommProcess.Has (p : CommProcess) (name id : Nat) : Prop :=
  ⟨name, some id⟩ ∈ p.comms ∨ ∃ on, ⟨name, id, on⟩ ∈ p.reserved

namespace CommSystem

/-- What all processes keep: their own invariants, and one id for all members of a communicator. -/
structure Inv (s : CommSystem) : Prop where
  procs : ∀ q, (s.procs q).Inv
  same : ∀ q q' name id id', (s.procs q).Has name id → (s.procs q').Has name id' → id = id'
  lt : ∀ q name id, (s.procs q).Has name id → name < s.next

variable {s s' : CommSystem}

theorem not_has_new {name id : Nat} : ¬ CommProcess.new.Has name id := by
  rintro (h | ⟨_, h⟩) <;> cases h

/-- It holds before the first communicator. -/
theorem new_inv : new.Inv :=
  ⟨fun _ => ⟨rfl, by simp [new, CommProcess.new], nodup_nil, nofun, nofun⟩,
    fun _ _ _ _ _ h => absurd h not_has_new, fun _ _ _ h => absurd h not_has_new⟩

theorem Inv.of_has (h : s.Inv) (hprocs : ∀ q, (s'.procs q).Inv) (hnext : s.next ≤ s'.next) (x : Nat)
    (hhas : ∀ q name id, (s'.procs q).Has name id →
      (s.procs q).Has name id ∨ (name = s.next ∧ id = x ∧ s.next < s'.next)) : s'.Inv := by
  refine ⟨hprocs, fun q q' name id id' hq hq' => ?_, fun q name id hq => ?_⟩
  · rcases hhas q name id hq with hold | ⟨hname, hid, -⟩ <;> rcases hhas q' name id' hq' with hold' | ⟨hname', hid', -⟩
    · exact h.same q q' name id id' hold hold'
    · exact absurd (hname' ▸ h.lt q name id hold) (lt_irrefl _)
    · exact absurd (hname ▸ h.lt q' name id' hold') (lt_irrefl _)
    · rw [hid, hid']
  · rcases hhas q name id hq with hold | ⟨hname, -, hlt⟩
    · exact (h.lt q name id hold).trans_le hnext
    · exact hname ▸ hlt

theorem inited_eq {isNew : Bool} {members : List Nat} {q : Nat} :
    s.inited isNew members q = s.procs q ∨ s.inited isNew members q = (s.procs q).initTransport := by
  unfold inited
  split
  · exact .inr rfl
  · exact .inl rfl

variable {procs : Nat → CommProcess} {p : CommProcess}

theorem free_of_createCommId {members : List Nat} {id : Nat}
    (h : OneCcl.createCommId procs members = some id) {q : Nat} (hq : q ∈ members) : (procs q).free id = true := by
  have hall := find?_some h
  exact all_eq_true.mp hall q hq

theorem Served.isSome {isNew : Bool} {members : List Nat} (h : s.Served (.atlComm isNew members)) :
    (OneCcl.createCommId (s.inited isNew members) members).isSome := by
  obtain ⟨id, hid, hfree⟩ := h
  exact find?_isSome.mpr ⟨id, mem_range.mpr hid, all_eq_true.mpr hfree⟩

theorem createCommId_eq {members : List Nat} {id : Nat} (hid : id < maxCommId)
    (hfree : ∀ q ∈ members, (procs q).free id = true) (hlow : ∀ j < id, ∃ q ∈ members, (procs q).free j = false) :
    OneCcl.createCommId procs members = some id := by
  refine find?_range_eq_some.mpr ⟨all_eq_true.mpr hfree, mem_range.mpr hid, fun j hj => ?_⟩
  obtain ⟨q, hq, htaken⟩ := hlow j hj
  rw [Bool.not_eq_true', all_eq_false]
  exact ⟨q, hq, by rw [htaken]; exact Bool.false_ne_true⟩

theorem Inv.atlComm (h : s.Inv) {isNew : Bool} {members : List Nat}
    (hserved : (OneCcl.createCommId (s.inited isNew members) members).isSome)
    (ht : isNew = true ∨ ∀ q ∈ members, (s.procs q).transport = true) : (s.atlComm isNew members).Inv := by
  obtain ⟨id, hid⟩ := Option.isSome_iff_exists.mp hserved
  simp only [CommSystem.atlComm, hid]
  -- outside of the members nothing changes
  have hout : ∀ q, q ∉ members → s.inited isNew members q = s.procs q := fun q hq => if_neg fun hand => hq hand.2
  refine h.of_has (fun q => ?_) (Nat.le_succ _) id fun q name x hx => ?_
  · by_cases hq : q ∈ members
    · simp only [if_pos hq]
      have hfree := free_of_createCommId hid hq
      have heq : s.inited isNew members q = (s.procs q).initTransport := by
        rcases ht with hnew | ht
        · exact if_pos ⟨hnew, hq⟩
        · rw [inited, initTransport, if_pos (ht q hq), ite_self]
      rw [heq] at hfree ⊢
      exact (h.procs q).construct_inited hfree
    · simp only [if_neg hq, hout q hq]
      exact h.procs q
  · by_cases hq : q ∈ members
    · simp only [if_pos hq] at hx
      have hfields : (s.inited isNew members q).comms = (s.procs q).comms ∧
          (s.inited isNew members q).reserved = (s.procs q).reserved := by
        rcases @inited_eq s isNew members q with heq | heq <;> rw [heq]
        · exact ⟨rfl, rfl⟩
        · exact ⟨initTransport_fields.2.1, initTransport_fields.2.2.1⟩
      rcases hx with hx | ⟨on, hx⟩
      · rcases mem_append.mp hx with hx | hx
        · exact .inl (.inl (hfields.1 ▸ hx))
        · obtain ⟨rfl, hsome⟩ := AtlBaseComm.mk.inj (mem_singleton.mp hx)
          exact .inr ⟨rfl, Option.some.inj hsome, Nat.lt_succ_self _⟩
      · exact .inl (.inr ⟨on, hfields.2 ▸ hx⟩)
    · simp only [if_neg hq, hout q hq] at hx
      exact .inl hx

theorem Inv.createCommId (h : s.Inv) {name : Nat}
    (hon : ∀ q ∈ s.members name, ∃ c ∈ (s.procs q).comms, c.name = name) : (s.createCommId name).Inv := by
  unfold CommSystem.createCommId
  split
  next id hid =>
    refine h.of_has (fun q => ?_) (Nat.le_succ _) id fun q n x hx => ?_
    · by_cases hq : q ∈ s.members name
      · simp only [if_pos hq]
        exact (h.procs q).reserve (free_of_createCommId hid hq) (hon q hq)
      · simp only [if_neg hq]
        exact h.procs q
    · by_cases hq : q ∈ s.members name
      · simp only [if_pos hq] at hx
        rcases hx with hx | ⟨on, hx⟩
        · exact .inl (.inl hx)
        · rcases mem_append.mp hx with hx | hx
          · exact .inl (.inr ⟨on, hx⟩)
          · obtain ⟨rfl, rfl, -⟩ := ReservedId.mk.inj (mem_singleton.mp hx)
            exact .inr ⟨rfl, rfl, Nat.lt_succ_self _⟩
      · simp only [if_neg hq] at hx
        exact .inl hx
  next => exact h

theorem set_procs_self (s : CommSystem) (q : Nat) (p : CommProcess) : (s.set q p).procs q = p := Function.update_self ..

theorem Inv.set (h : s.Inv) {q : Nat} (hp : p.Inv)
    (hhas : ∀ name id, p.Has name id → (s.procs q).Has name id) : (s.set q p).Inv := by
  have hself := s.set_procs_self q p
  have hother : ∀ q', q' ≠ q → (s.set q p).procs q' = s.procs q' := fun q' hne => Function.update_of_ne hne ..
  refine h.of_has (fun q' => ?_) (le_rfl) 0 fun q' name id hx => .inl ?_
  · by_cases hq : q' = q
    · rw [hq, hself]
      exact hp
    · rw [hother q' hq]
      exact h.procs q'
  · by_cases hq : q' = q
    · rw [hq, hself] at hx
      rw [hq]
      exact hhas name id hx
    · rwa [hother q' hq] at hx

theorem has_internalComm {i : Nat} {base : AtlBaseComm} (hbase : p.comms[i]? = some base)
    {name id : Nat} {reserved : List ReservedId} (hid : p.Has name id) (hsub : ∀ r ∈ reserved, r ∈ p.reserved)
    {n x : Nat} (h : (p.internalComm i base name id reserved).Has n x) : p.Has n x := by
  rcases h with h | ⟨on, h⟩
  · rcases mem_append.mp h with h | h
    · rcases mem_or_eq_of_mem_set h with h | h
      · exact .inl h
      · obtain ⟨rfl, hx⟩ := AtlBaseComm.mk.inj h
        split at hx
        next => cases hx
        next =>
          refine .inl ?_
          rw [hx]
          exact mem_of_getElem? hbase
    · obtain ⟨rfl, hx⟩ := AtlBaseComm.mk.inj (mem_singleton.mp h)
      exact Option.some.inj hx ▸ hid
  · exact .inr ⟨on, hsub _ h⟩

/-- Every action that finds an id keeps the invariant. -/
theorem Inv.step (h : s.Inv) {a : CommAction} (hserved : s.Served a) (hs : s.step a = some s') : s'.Inv := by
  cases a with
  | atlComm isNew members =>
    obtain ⟨ht, hs⟩ := Option.ite_none_right_eq_some.mp hs
    cases hs
    exact h.atlComm hserved.isSome (ht.imp_right all_eq_true.mp)
  | createCommId name =>
    obtain ⟨hon, hs⟩ := Option.ite_none_right_eq_some.mp hs
    cases hs
    refine h.createCommId fun q hq => ?_
    obtain ⟨c, hc, hname⟩ := any_eq_true.mp (all_eq_true.mp hon q hq)
    exact ⟨c, hc, of_decide_eq_true hname⟩
  | internalComm q i j =>
    obtain ⟨base, hbase, hs⟩ := Option.bind_eq_some_iff.mp hs
    cases j with
    | none =>
      obtain ⟨id, hid, rfl⟩ := Option.map_eq_some_iff.mp hs
      have hown : (s.procs q).Has base.name id := .inl (hid ▸ mem_of_getElem? hbase)
      exact h.set ((h.procs q).internalComm hbase (ids_internalComm_own hbase hid) fun _ hr => hr)
        fun n x hx => has_internalComm hbase hown (fun _ hr => hr) hx
    | some j =>
      obtain ⟨r, hr, rfl⟩ := Option.map_eq_some_iff.mp hs
      have hres : (s.procs q).Has r.name r.id := .inr ⟨r.on, mem_of_getElem? hr⟩
      have hsub : ∀ x ∈ (s.procs q).reserved.eraseIdx j, x ∈ (s.procs q).reserved :=
        fun x hx => (eraseIdx_sublist _ j).subset hx
      exact h.set ((h.procs q).internalComm hbase ((h.procs q).ids_internalComm_reserved hbase hr) hsub)
        fun n x hx => has_internalComm hbase hres hsub hx
  | destroy q i =>
    obtain ⟨-, hs⟩ := Option.ite_none_right_eq_some.mp hs
    obtain ⟨c, hc, rfl⟩ := Option.map_eq_some_iff.mp hs
    refine h.set ((h.procs q).destroy hc) fun name id hx => ?_
    rcases hx with hx | ⟨on, hx⟩
    · exact .inl ((eraseIdx_sublist _ i).subset hx)
    · exact .inr ⟨on, (mem_filter.mp hx).1⟩

theorem Inv.safeIds (h : s.Inv) : s.SafeIds := by
  refine ⟨fun q q' name id id' hq hq' => h.same q q' name id id' (.inl hq) (.inl hq'), fun q => ?_, ?_⟩
  · exact (nodup_append.mp (h.procs q).nodup).1
  · intro q i s' c id hs hc hid
    obtain ⟨-, hs⟩ := Option.ite_none_right_eq_some.mp hs
    obtain ⟨c', hc', rfl⟩ := Option.map_eq_some_iff.mp hs
    obtain rfl := Option.some.inj (hc'.symm.trans hc)
    have hmem : id ∈ (s.procs q).ids :=
      mem_append_left _ (mem_filterMap.mpr ⟨c', mem_of_getElem? hc, hid⟩)
    rw [set_procs_self]
    refine ⟨(h.procs q).held id hmem, ?_, (h.procs q).not_mem_destroy hc hid⟩
    show ((s.procs q).release c'.commId).free id = true
    rw [hid]
    exact Function.update_self ..

/-- In every sequence of creations and destructions in which an ATL communicator is constructed only when some id is free
on all its members, the ids are safe in every state. -/
theorem comm_ids_safe (hrun : Run Served new s) : s.SafeIds := by
  refine Inv.safeIds ?_
  induction hrun with
  | refl => exact new_inv
  | tail _ hstep ih =>
    obtain ⟨a, hserved, hs⟩ := hstep
    exact ih.step hserved hs

/-- A step that meets the condition. -/
def servedStep (s : CommSystem) (a : CommAction) : Option CommSystem :=
  match a with
  | .atlComm isNew members =>
    if (OneCcl.createCommId (s.inited isNew members) members).isSome then s.step a else none
  | _ => s.step a

theorem served_of_isSome {isNew : Bool} {members : List Nat}
    (h : (OneCcl.createCommId (s.inited isNew members) members).isSome) : s.Served (.atlComm isNew members) := by
  obtain ⟨id, hid, hfree⟩ := find?_isSome.mp h
  exact ⟨id, mem_range.mp hid, all_eq_true.mp hfree⟩

theorem run_of_servedSteps {actions : List CommAction} (h : actions.foldlM servedStep s = some s') : Run Served s s' := by
  induction actions generalizing s with
  | nil =>
    cases h
    exact .refl
  | cons a actions ih =>
    obtain ⟨s₁, hs₁, hrest⟩ := Option.bind_eq_some_iff.mp h
    refine .head ⟨a, ?_⟩ (ih hrest)
    cases a with
    | atlComm isNew members =>
      obtain ⟨hsome, hstep⟩ := Option.ite_none_right_eq_some.mp hs₁
      exact ⟨served_of_isSome hsome, hstep⟩
    | _ => exact ⟨trivial, hs₁⟩

/-- Two processes make a communicator and split it, and one of them destroys the split. -/
def twoProcesses : List CommAction :=
  [.atlComm true [0, 1], .createCommId 0, .internalComm 0 0 (some 0), .internalComm 1 0 (some 0),
    .atlComm false [0, 1], .internalComm 0 2 none, .internalComm 1 2 none, .destroy 0 2, .destroy 1 2, .destroy 0 2]

/-- Their ids are safe afterwards: the communicator has id 1 on both, and the split id 2 on the other process. -/
theorem first_comm_ids_safe : ∃ s, twoProcesses.foldlM servedStep new = some s ∧
    (s.procs 0).comms = [⟨0, some 0⟩, ⟨1, some 1⟩] ∧ (s.procs 1).comms = [⟨0, some 0⟩, ⟨1, some 1⟩, ⟨2, some 2⟩] ∧
    s.SafeIds := by
  have hcomms : (twoProcesses.foldlM servedStep new).map (fun s => ((s.procs 0).comms, (s.procs 1).comms)) =
      some ([⟨0, some 0⟩, ⟨1, some 1⟩], [⟨0, some 0⟩, ⟨1, some 1⟩, ⟨2, some 2⟩]) := by decide +kernel
  obtain ⟨s, hs, hlists⟩ := Option.map_eq_some_iff.mp hcomms
  obtain ⟨hzero, hone⟩ := Prod.mk.inj hlists
  exact ⟨s, hs, hzero, hone, comm_ids_safe (run_of_servedSteps hs)⟩

/-! ## After the ids have run out -/

section

open Function

abbrev AnyRun : CommSystem → CommSystem → Prop := Run fun _ _ => True

/-- Process 0 is the only one that has communicators. -/
def alone (p : CommProcess) (members : Nat → List Nat) (next : Nat) : CommSystem :=
  ⟨update (fun _ => .new) 0 p, members, next⟩

variable {members : Nat → List Nat} {next id : Nat}

@[simp] theorem alone_procs : (alone p members next).procs 0 = p := by simp [alone]

@[simp] theorem alone_members : (alone p members next).members = members := rfl

@[simp] theorem alone_next : (alone p members next).next = next := rfl

theorem set_alone (p' : CommProcess) : (alone p members next).set 0 p' = alone p' members next := by
  simp [alone, set]

theorem createCommId_alone {procs : Nat → CommProcess} (hp : procs 0 = p) (hid : id < maxCommId)
    (hfree : p.free id = true) (hlow : ∀ j < id, p.free j = false) : OneCcl.createCommId procs [0] = some id :=
  createCommId_eq hid (by simpa [hp] using hfree) fun j hj => ⟨0, by simp, by simpa [hp] using hlow j hj⟩

section

variable (members next)

theorem free_construct (name j : Nat) : (p.construct name id).free j = if j = id then false else p.free j :=
  update_apply ..

theorem step_atlComm (isNew : Bool) (ht : isNew = true ∨ p.transport = true) (hid : id < maxCommId)
    (hfree : p.initTransport.free id = true) (hlow : ∀ j < id, p.initTransport.free j = false) :
    (alone p members next).step (.atlComm isNew [0]) =
      some (alone (p.initTransport.construct next id) (update members next [0]) (next + 1)) := by
  have hinit : (alone p members next).inited isNew [0] = update (fun _ => .new) 0 p.initTransport := by
    funext q
    by_cases hq : q = 0
    · cases isNew <;> simp_all [inited, alone, initTransport]
    · simp [inited, alone, hq]
  have hcreate := createCommId_alone (congrFun hinit 0 |>.trans (update_self ..)) hid hfree hlow
  rw [step, if_pos (ht.imp_right fun h => by simp [h]), atlComm, hcreate, hinit]
  refine congrArg some (CommSystem.mk.injEq .. ▸ ⟨?_, rfl, rfl⟩)
  funext q
  by_cases hq : q = 0 <;> simp [hq]

theorem step_atlComm_throws (ht : p.transport = true) (hfree : ∀ j < maxCommId, p.free j = false) :
    (alone p members next).step (.atlComm false [0]) = some (alone p.dropCount members next) := by
  have hnone : OneCcl.createCommId ((alone p members next).inited false [0]) [0] = none := by
    refine find?_eq_none.mpr fun j hj => ?_
    simp [inited, hfree j (mem_range.mp hj)]
  rw [step, if_pos (.inr (by simp [ht])), atlComm, hnone]
  refine congrArg some (CommSystem.mk.injEq .. ▸ ⟨?_, rfl, rfl⟩)
  funext q
  by_cases hq : q = 0 <;> simp [hq, inited, alone]

variable {i : Nat} {c : AtlBaseComm}

theorem step_copy (hc : p.comms[i]? = some c) (hid : c.commId = some id) :
    (alone p members next).step (.internalComm 0 i none) =
      some (alone (p.internalComm i c c.name id p.reserved) members next) := by
  simp [step, hc, hid, set_alone]

theorem step_copyReserved {r : ReservedId} (hc : p.comms[i]? = some c)
    (hr : p.reserved = [r]) : (alone p members next).step (.internalComm 0 i (some 0)) =
      some (alone (p.internalComm i c r.name r.id []) members next) := by
  simp [step, hc, hr, set_alone]

theorem step_destroy (ht : p.transport = true) (hc : p.comms[i]? = some c) :
    (alone p members next).step (.destroy 0 i) = some (alone (p.destroy i c) members next) := by
  simp [step, ht, hc, set_alone]

theorem step_createCommId {name : Nat} (hm : members name = [0]) (hon : ∃ c ∈ p.comms, c.name = name)
    (hid : id < maxCommId) (hfree : p.free id = true) (hlow : ∀ j < id, p.free j = false) :
    (alone p members next).step (.createCommId name) =
      some (alone (p.reserve next id name) (update members next [0]) (next + 1)) := by
  have hcreate := createCommId_alone (@alone_procs p members next) hid hfree hlow
  rw [step, if_pos (by simpa [hm] using hon), CommSystem.createCommId, alone_members, hm, hcreate]
  refine congrArg some (CommSystem.mk.injEq .. ▸ ⟨?_, rfl, rfl⟩)
  funext q
  by_cases hq : q = 0 <;> simp [hq, alone]

/-- **A sub-communicator**: the base is constructed, copied with its own id, and destroyed. -/
theorem run_split (hres : p.reserved = []) (ht : p.transport = true) (hid : id < maxCommId) (hfree : p.free id = true)
    (hlow : ∀ j < id, p.free j = false) :
    AnyRun (alone p members next) (alone (p.construct next id) (update members next [0]) (next + 1)) := by
  have hinit : p.initTransport = p := if_pos ht
  have h₁ := step_atlComm members next false (.inr ht) hid (hinit.symm ▸ hfree) (hinit.symm ▸ hlow)
  rw [hinit] at h₁
  have hbase : (p.construct next id).comms[p.comms.length]? = some ⟨next, some id⟩ := by simp [construct]
  have h₂ := step_copy (update members next [0]) (next + 1) hbase rfl
  generalize hp₂ : (p.construct next id).internalComm p.comms.length _ _ _ _ = p₂ at h₂
  have hget : p₂.comms[p.comms.length]? = some ⟨next, none⟩ := by
    simp [← hp₂, internalComm, construct]
  have h₃ := step_destroy (update members next [0]) (next + 1)
    (by simp [← hp₂, internalComm, construct, acquire, ht]) hget
  have hend : p₂.destroy p.comms.length ⟨next, none⟩ = p.construct next id := by
    simp [← hp₂, internalComm, construct, acquire, destroy,
      release, dropCount, ht, hres, eraseIdx_append_of_length_le]
  rw [hend] at h₃
  exact ((Relation.ReflTransGen.refl.tail ⟨_, trivial, h₁⟩).tail ⟨_, trivial, h₂⟩).tail ⟨_, trivial, h₃⟩

/-- **The start of a new communicator**: the base is constructed, takes another id, and is copied with it. -/
theorem run_start (hres : p.reserved = []) (hid : id + 1 < maxCommId)
    (hfree : ∀ j, p.initTransport.free j = decide (id ≤ j)) :
    ∃ members', AnyRun (alone p members next) (alone ((p.initTransport.construct next id).construct (next + 1) (id + 1))
      members' (next + 2)) := by
  have h₁ := step_atlComm (p := p) members next true (.inl rfl) (Nat.lt_of_succ_lt hid) (by simp [hfree])
    fun j hj => by simpa [hfree] using hj
  have hfree' : ∀ j, (p.initTransport.construct next id).free j = decide (id + 1 ≤ j) := by
    intro j
    rw [free_construct, hfree]
    split <;> simp <;> omega
  have h₂ := step_createCommId (p := p.initTransport.construct next id) (update members next [0]) (next + 1)
    (update_self ..) ⟨⟨next, some id⟩, by simp [construct], rfl⟩ hid (by simp [hfree']) fun j hj => by simpa [hfree'] using hj
  have hcomms := (@initTransport_fields p).2.1
  have hreserved := (@initTransport_fields p).2.2.1.trans hres
  have h₃ := step_copyReserved (update (update members next [0]) (next + 1) [0]) (next + 2)
    (p := (p.initTransport.construct next id).reserve (next + 1) (id + 1) next) (i := p.comms.length) (c := ⟨next, some id⟩)
    (r := ⟨next + 1, id + 1, next⟩) (by simp [reserve, acquire, construct, hcomms])
    (by simp [reserve, acquire, construct, hreserved])
  have hend : ((p.initTransport.construct next id).reserve (next + 1) (id + 1) next).internalComm p.comms.length
      ⟨next, some id⟩ (next + 1) (id + 1) [] = (p.initTransport.construct next id).construct (next + 1) (id + 1) := by
    simp [internalComm, reserve, acquire, construct, hcomms, hreserved]
  rw [hend] at h₃
  exact ⟨_, ((Relation.ReflTransGen.refl.tail ⟨_, trivial, h₁⟩).tail ⟨_, trivial, h₂⟩).tail ⟨_, trivial, h₃⟩⟩

end

/-- Process 0 can get from `p` to a state with the property. -/
def Reaches (p : CommProcess) (P : CommProcess → Prop) : Prop :=
  ∀ members next, ∃ p' members' next', AnyRun (alone p members next) (alone p' members' next') ∧ P p'

variable {P Q : CommProcess → Prop}

theorem Reaches.of_self (h : P p) : Reaches p P := fun members next => ⟨p, members, next, .refl, h⟩

theorem Reaches.trans (h : Reaches p P) (hP : ∀ p', P p' → Reaches p' Q) : Reaches p Q := by
  intro members next
  obtain ⟨p₁, members₁, next₁, hrun₁, hp₁⟩ := h members next
  obtain ⟨p₂, members₂, next₂, hrun₂, hp₂⟩ := hP p₁ hp₁ members₁ next₁
  exact ⟨p₂, members₂, next₂, hrun₁.trans hrun₂, hp₂⟩

theorem dropCount_of_two_le (h : 2 ≤ p.commCount) :
    p.dropCount.commCount = p.commCount - 1 ∧ p.dropCount.transport = p.transport := by
  unfold dropCount
  rw [if_neg (by omega)]
  refine ⟨rfl, ?_⟩
  show (p.transport && decide (p.commCount - 1 ≠ 0)) = p.transport
  rw [decide_eq_true (by omega), Bool.and_true]

theorem destroy_fields (i : Nat) (c : AtlBaseComm) :
    (p.destroy i c).commCount = p.dropCount.commCount ∧ (p.destroy i c).transport = p.dropCount.transport := by
  unfold CommProcess.destroy release
  split <;> exact ⟨rfl, rfl⟩

/-- The ids below `k` are taken, each by one communicator, and `comm_count` is `lost` too low. -/
structure Filled (k lost : Nat) (p : CommProcess) : Prop where
  transport : p.transport = true
  reserved : p.reserved = []
  commCount : p.commCount + lost = k
  ids : p.comms.map AtlBaseComm.commId = (range k).map some
  free : ∀ j, p.free j = decide (k ≤ j)

variable {k lost : Nat}

theorem Filled.construct (h : Filled k lost p) (name : Nat) : Filled (k + 1) lost (p.construct name k) := by
  refine ⟨h.transport, h.reserved, ?_, ?_, fun j => ?_⟩
  · show p.commCount + 1 + lost = k + 1
    rw [← h.commCount]
    omega
  · rw [range_succ, map_append, ← h.ids, CommProcess.construct, map_append]
    rfl
  · rw [free_construct, h.free]
    split <;> simp <;> omega

theorem Filled.split (h : Filled k lost p) (hk : k < maxCommId) : Reaches p (Filled (k + 1) lost) := fun members next =>
  ⟨_, _, _, run_split members next h.reserved h.transport hk (by simp [h.free]) fun j hj => by simpa [h.free] using hj,
    h.construct next⟩

theorem Filled.start (h : Filled k lost p.initTransport) (hk : k + 1 < maxCommId) : Reaches p (Filled (k + 2) lost) := by
  intro members next
  obtain ⟨members', hrun⟩ := run_start members next ((@initTransport_fields p).2.2.1.symm.trans h.reserved) hk h.free
  exact ⟨_, members', _, hrun, (h.construct next).construct (next + 1)⟩

/-- A new communicator takes six ids. -/
theorem Filled.create (h : Filled k lost p.initTransport) (hk : k + 6 ≤ maxCommId) : Reaches p (Filled (k + 6) lost) :=
  (((((h.start (by omega)).trans fun _ h => h.split (by omega)).trans fun _ h => h.split (by omega)).trans
    fun _ h => h.split (by omega)).trans fun _ h => h.split (by omega))

/-- A split that finds no id takes one off `comm_count`. -/
theorem Filled.throws (h : Filled maxCommId lost p) (hlost : lost + 1 < maxCommId) :
    Reaches p (Filled maxCommId (lost + 1)) := by
  intro members next
  have hcount := h.commCount
  obtain ⟨hdropped, hkept⟩ := dropCount_of_two_le (p := p) (by omega)
  refine ⟨_, _, _, .single ⟨_, trivial, step_atlComm_throws members next h.transport fun j hj => ?_⟩,
    ?_, h.reserved, ?_, h.ids, h.free⟩
  · simpa [h.free] using hj
  · rw [hkept, h.transport]
  · omega

/-- The last communicator is destroyed. -/
theorem Filled.destroy (h : Filled (k + 1) lost p) : Reaches p fun p' => p'.reserved = [] ∧
    p'.commCount = p.dropCount.commCount ∧ p'.transport = p.dropCount.transport ∧
    p'.comms.map AtlBaseComm.commId = (range k).map some ∧ ∀ j, p'.free j = decide (k ≤ j) := by
  intro members next
  obtain ⟨l, c, hl⟩ : ∃ l c, p.comms = l ++ [c] := by
    have hlen := congrArg length h.ids
    rw [length_map, length_map, length_range] at hlen
    exact ⟨_, _, (dropLast_append_getLast (ne_nil_of_length_pos (by omega))).symm⟩
  have hids := h.ids
  rw [hl, range_succ, map_append, map_append] at hids
  obtain ⟨hpre, hlast⟩ := append_inj' hids rfl
  have hc : c.commId = some k := (cons.inj hlast).1
  have hstep := step_destroy members next h.transport (i := l.length) (c := c) (by simp [hl])
  obtain ⟨hcount, ht⟩ := destroy_fields (p := p) l.length c
  refine ⟨_, _, _, .single ⟨_, trivial, hstep⟩, by simp [CommProcess.destroy, h.reserved], hcount, ht, ?_, fun j => ?_⟩
  · simpa [CommProcess.destroy, hl, eraseIdx_append_of_length_le] using hpre
  · simp only [CommProcess.destroy, dropCount, release, hc, update_apply, h.free]
    split <;> simp <;> omega

section

/-! Repeated `n` times. -/

variable (n : Nat)

theorem Filled.splits (h : Filled k lost p) (hk : k + n ≤ maxCommId) : Reaches p (Filled (k + n) lost) := by
  induction n with
  | zero => exact .of_self h
  | succ n ih => exact (ih (by omega)).trans fun _ h => h.split (by omega)

theorem Filled.throwing (h : Filled maxCommId 0 p) (hn : n < maxCommId) : Reaches p (Filled maxCommId n) := by
  induction n with
  | zero => exact .of_self h
  | succ n ih => exact (ih (by omega)).trans fun _ h => h.throws hn

theorem Filled.destroys (h : Filled (k + n) lost p) (hlost : lost < k) : Reaches p (Filled k lost) := by
  induction n generalizing p with
  | zero => exact .of_self h
  | succ n ih =>
    have hcount := h.commCount
    obtain ⟨hdropped, hkept⟩ := dropCount_of_two_le (p := p) (by omega)
    refine (h.destroy (k := k + n)).trans fun p' ⟨hres, hcount', ht, hids, hfree⟩ => ih ⟨?_, hres, ?_, hids, hfree⟩
    · rw [ht, hkept, h.transport]
    · omega

end

/-- Process 0 makes a communicator and splits it 1018 times. Six more splits throw. It destroys the splits and makes a new
communicator: that gets the ids of the first, which is still there. -/
theorem comm_id_given_twice : ∃ s, AnyRun new s ∧ ¬ ((s.procs 0).comms.filterMap AtlBaseComm.commId).Nodup := by
  have hmax : maxCommId = 1024 := by
    unfold maxCommId
    rfl
  have hstart : Filled 0 0 CommProcess.new.initTransport :=
    ⟨rfl, rfl, rfl, rfl, fun j => by simp [initTransport, CommProcess.new]⟩
  have hfull : Reaches .new (Filled maxCommId 0) := by
    rw [show maxCommId = 0 + 6 + 1018 from hmax]
    exact (hstart.create (by omega)).trans fun _ h => h.splits 1018 (by omega)
  have hlost : Reaches .new (Filled (7 + 1017) 6) := by
    rw [show 7 + 1017 = maxCommId from hmax.symm]
    exact hfull.trans fun _ h => h.throwing 6 (by omega)
  obtain ⟨p, members, next, hrun, hp⟩ := (hlost.trans fun _ h => h.destroys 1017 (by omega)) (fun _ => []) 0
  rw [show alone .new (fun _ => []) 0 = new by simp [new, alone]] at hrun
  -- with the last split the transport goes, and the new one has all ids free
  obtain ⟨p', members', next', hrun', hres, hcount, ht, hids, -⟩ := hp.destroy members next
  have hone : p.commCount = 1 := by
    have := hp.commCount
    omega
  have hgone : p'.transport = false := by
    rw [ht, dropCount, hone]
    exact Bool.and_false _
  have hfree : ∀ j, p'.initTransport.free j = decide (0 ≤ j) := by simp [initTransport, hgone]
  obtain ⟨members'', hnew⟩ := run_start members' next' hres (by omega) hfree
  refine ⟨_, (hrun.trans hrun').trans hnew, fun hnodup => ?_⟩
  obtain ⟨c, hc, hid⟩ := mem_map.mp (hids ▸ mem_map_of_mem (mem_range.mpr (by decide)) :
    some 1 ∈ p'.comms.map AtlBaseComm.commId)
  have hmem : 1 ∈ p'.comms.filterMap AtlBaseComm.commId := mem_filterMap.mpr ⟨c, hc, hid⟩
  simp only [alone_procs, CommProcess.construct, acquire, (@initTransport_fields p').2.1, append_assoc,
    filterMap_append] at hnodup
  exact (nodup_append.mp hnodup).2.2 1 hmem 1 (by simp) rfl

end

end CommSystem

end OneCcl
