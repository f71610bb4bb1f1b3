import Mathlib.Algebra.Order.Ring.Int
import Mathlib.Data.List.Basic

/-!
# Requests to the key-value store

A client of the internal key-value store sends records of fixed size: the access mode in four bytes, and the name of the
table, the key and the value in fields of 130 bytes. The server copies the fields into arrays that lie side by side and reads
them as C strings.

The record says what the client meant when name and key are not empty and all three leave room for a terminating zero
(`requestGet_of_put`). Otherwise it may not: `put` moves on to the next field only behind a string that is not empty, and the
server reads a field that is full on into the next one.
-/

namespace OneCcl

open List

/-- `kvs_access_mode_t`, as far as the tables are concerned. -/
inductive KvsAccessMode where
  | put
  | remove
  | getVal
  deriving DecidableEq, Repr

namespace KvsAccessMode

def toNat : KvsAccessMode → Nat
  | put => 2
  | remove => 3
  | getVal => 5

def ofNat? : Nat → Option KvsAccessMode
  | 2 => some put
  | 3 => some remove
  | 5 => some getVal
  | _ => none

def bytes (mode : KvsAccessMode) : List UInt8 :=
  [0, 8, 16, 24].map fun shift => UInt8.ofNat (mode.toNat >>> shift)

def ofBytes (l : List UInt8) : Option KvsAccessMode :=
  ofNat? (l.foldr (fun b n => b.toNat + 256 * n) 0)

theorem ofBytes_bytes (mode : KvsAccessMode) : ofBytes mode.bytes = some mode := by
  cases mode <;> decide

end KvsAccessMode

/-- `MAX_KVS_NAME_LENGTH`, `MAX_KVS_KEY_LENGTH` and `MAX_KVS_VAL_LENGTH`. -/
def maxKvsLength : Nat := 130

def sizeofMode : Nat := 4

def putBufSize : Nat := sizeofMode + maxKvsLength + maxKvsLength + maxKvsLength

/-- `std::copy` of a string into the buffer. -/
def copyAt (buf : List UInt8) (pos : Nat) (l : List UInt8) : List UInt8 :=
  buf.take pos ++ l ++ buf.drop (pos + l.length)

/-- One string of `kvs_request_t::put`. The field before it has the given size. -/
def putString (size : Nat) (l : List UInt8) : List UInt8 × Nat → Option (List UInt8 × Nat)
  | (buf, step) =>
    if l = [] then some (buf, step)
    else if l.length ≤ maxKvsLength then some (copyAt buf (step + size) l, step + size)
    else none

/-- `kvs_request_t::put`: the record that is written to the socket, or nothing when a string is too long. -/
def requestPut (mode : KvsAccessMode) (name key val : List UInt8) : Option (List UInt8) := do
  let putBuf := copyAt (replicate putBufSize 0) 0 mode.bytes
  let (putBuf, step) ← putString sizeofMode name (putBuf, 0)
  let (putBuf, step) ← putString maxKvsLength key (putBuf, step)
  let (putBuf, _) ← putString maxKvsLength val (putBuf, step)
  return putBuf

/-- The C string at the start of the memory. -/
def cString (l : List UInt8) : List UInt8 := l.takeWhile (· ≠ 0)

/-- What the server reads of a record. -/
structure KvsRequest where
  mode : Option KvsAccessMode
  name : List UInt8
  key : List UInt8
  val : List UInt8
  deriving DecidableEq, Repr

/-- `kvs_request_t::get`. The arrays lie side by side, and behind the last one is padding, which is zero. -/
def requestGet (getBuf : List UInt8) : KvsRequest where
  mode := KvsAccessMode.ofBytes (getBuf.take sizeofMode)
  name := cString (getBuf.drop sizeofMode)
  key := cString (getBuf.drop (sizeofMode + maxKvsLength))
  val := cString (getBuf.drop (sizeofMode + maxKvsLength + maxKvsLength))

/-- A C string that leaves room for its terminating zero in a field. -/
structure Fitting (l : List UInt8) : Prop where
  nonzero : ∀ b ∈ l, b ≠ 0
  length_lt : l.length < maxKvsLength

def field (l : List UInt8) : List UInt8 := l ++ replicate (maxKvsLength - l.length) 0

section

variable {l name key val rest : List UInt8} {mode : KvsAccessMode}

theorem Fitting.length_field (h : Fitting l) : (field l).length = maxKvsLength := by
  have hlen := h.length_lt
  rw [field, length_append, length_replicate]
  omega

theorem cString_append (h : ∀ b ∈ l, b ≠ 0) : cString (l ++ 0 :: rest) = l := by
  unfold cString
  rw [takeWhile_append_of_pos fun b hb => decide_eq_true (h b hb)]
  simp

theorem Fitting.cString_field (h : Fitting l) (rest : List UInt8) : cString (field l ++ rest) = l := by
  obtain ⟨n, hn⟩ := Nat.exists_eq_add_of_lt h.length_lt
  have hfield : field l ++ rest = l ++ 0 :: (replicate n 0 ++ rest) := by
    have hpad : maxKvsLength - l.length = n + 1 := by omega
    rw [field, hpad, replicate_succ, append_assoc, cons_append]
  rw [hfield, cString_append h.nonzero]

theorem copyAt_zeros (a : List UInt8) (n : Nat) (h : l.length ≤ maxKvsLength) :
    copyAt (a ++ replicate (maxKvsLength + n) 0) a.length l = (a ++ field l) ++ replicate n 0 := by
  have hzeros : (replicate (maxKvsLength + n) (0 : UInt8)).drop l.length =
      replicate (maxKvsLength - l.length) 0 ++ replicate n 0 := by
    rw [drop_replicate, replicate_append_replicate]
    congr 1
    omega
  rw [copyAt, take_left, ← drop_drop, drop_left, hzeros, field]
  simp only [append_assoc]

theorem putString_of_ne (size step : Nat) (a : List UInt8) (n : Nat) (hl : l ≠ []) (hlen : l.length ≤ maxKvsLength)
    (ha : a.length = step + size) : putString size l (a ++ replicate (maxKvsLength + n) 0, step) =
      some ((a ++ field l) ++ replicate n 0, a.length) := by
  rw [putString, if_neg hl, if_pos hlen, ← ha, copyAt_zeros a n hlen]

theorem length_bytes : mode.bytes.length = sizeofMode := rfl

theorem requestPut_eq (hname : Fitting name) (hkey : Fitting key) (hval : Fitting val) (hn : name ≠ []) (hk : key ≠ []) :
    requestPut mode name key val = some (mode.bytes ++ (field name ++ (field key ++ field val))) := by
  have hstart : copyAt (replicate putBufSize 0) 0 mode.bytes =
      mode.bytes ++ replicate (maxKvsLength + (maxKvsLength + maxKvsLength)) 0 := by
    cases mode <;> rfl
  have hlens := hname.length_field
  have hlenk := hkey.length_field
  have hstep := putString_of_ne sizeofMode 0 mode.bytes (maxKvsLength + maxKvsLength) hn
    hname.length_lt.le (by rw [length_bytes, Nat.zero_add])
  have hstep' := putString_of_ne maxKvsLength mode.bytes.length (mode.bytes ++ field name) maxKvsLength hk
    hkey.length_lt.le (by rw [length_append, hlens])
  unfold requestPut
  rw [hstart]
  simp only [hstep, hstep', Option.bind_eq_bind, Option.bind_some]
  by_cases hv : val = []
  · subst hv
    rw [putString, if_pos rfl]
    simp [field]
  · have hstep'' := putString_of_ne maxKvsLength (mode.bytes ++ field name).length
      (mode.bytes ++ field name ++ field key) 0 hv hval.length_lt.le (by simp only [length_append, hlenk])
    rw [Nat.add_zero] at hstep''
    rw [hstep'']
    simp

theorem requestPut_of_long (h : maxKvsLength < val.length) : requestPut mode name key val = none := by
  have hval : val ≠ [] := by
    rintro rfl
    exact absurd h (Nat.not_lt_zero _)
  have hput : ∀ st, putString maxKvsLength val st = none := by
    rintro ⟨buf, step⟩
    rw [putString, if_neg hval, if_neg h.not_ge]
  simp only [requestPut, hput, Option.bind_eq_bind, Option.bind_none, Option.bind_fun_none]

variable (mode) in
/-- **What the server reads is what the client sent**, for strings that fit. -/
theorem requestGet_of_put (hname : Fitting name) (hkey : Fitting key) (hval : Fitting val) (hn : name ≠ []) (hk : key ≠ []) :
    ∃ record, requestPut mode name key val = some record ∧ requestGet record = ⟨some mode, name, key, val⟩ := by
  refine ⟨_, requestPut_eq hname hkey hval hn hk, ?_⟩
  have hlens := hname.length_field
  have hlenk := hkey.length_field
  have hmode : (mode.bytes ++ (field name ++ (field key ++ field val))).take sizeofMode = mode.bytes := take_left' rfl
  have hdrop : (mode.bytes ++ (field name ++ (field key ++ field val))).drop sizeofMode =
      field name ++ (field key ++ field val) := drop_left' rfl
  have hval' := hval.cString_field []
  rw [append_nil] at hval'
  simp only [requestGet, hmode, KvsAccessMode.ofBytes_bytes, ← drop_drop, hdrop, drop_left' hlens,
    drop_left' hlenk, hname.cString_field, hkey.cString_field, hval']

end

end OneCcl
