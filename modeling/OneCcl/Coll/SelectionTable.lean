import OneCcl.Table.SortedMap

/-!
# Algorithm selection tables

Which algorithm a collective runs is looked up in a table by the size of its data. The table is an ordered map from sizes:
a range of sizes is stored as its left and its right border, a range of one size as a single entry. `insert` overrides a
range of sizes in place: it removes the ranges inside, cuts the ones that stick out, adds the new borders and merges
neighbours with one algorithm.
-/

namespace OneCcl

open SortedMap

/-- Border kinds: `ccl_selection_border_type`. -/
inductive SelectionBorder where
  | left
  | right
  | both
  deriving DecidableEq, Repr

/-- Selection tables: `ccl_selection_table_t`. -/
abbrev SelectionTable (α : Type) := List (Nat × α × SelectionBorder)

/-- `CCL_SELECTION_MAX_COLL_SIZE`, the largest `size_t`. -/
def selectionMaxCollSize : Nat := 2 ^ 64 - 1

/-- How `insert` can go wrong: a check of its own fails, it uses an iterator to an element that is not there, or it never
comes to an end. -/
inductive InsertError where
  | check
  | erased
  | endless
  deriving DecidableEq, Repr

/-- What a step of `insert` leaves. -/
abbrev TableResult (α : Type) := Except InsertError (SelectionTable α)

variable {α : Type}

/-- `get_value_from_table`; there is no value for a size that is out of range. -/
def getValueFromTable (size : Nat) (table : SelectionTable α) : Option α :=
  (lowerBound table size).map fun elem => elem.2.1

/-- `table.erase(iter)`, for the iterator to the element with a key. -/
def eraseElem (table : SelectionTable α) (size : Nat) : TableResult α :=
  match find table size with
  | none => .error .erased
  | some _ => .ok (erase table size)

section

variable [DecidableEq α]

/-- The first loop of `insert`, from the iterator on: remove the ranges between left and right. `elemSize` is the variable
of that name at the test of the loop, so the size of the element looked at *before*. -/
def removeInternal (right : Nat) : Nat → SelectionTable α → TableResult α
  | _, [] => .ok []
  | elemSize, (size, algo, border) :: rest =>
    if elemSize ≤ right then
      match border with
      | .right => (removeInternal right size rest).map ((size, algo, border) :: ·)
      | .both => removeInternal right size rest
      | .left =>
        match rest with
        | [] => .error .check
        | (nextSize, nextAlgo, nextBorder) :: rest' =>
          if nextBorder ≠ .right then .error .check
          else if algo ≠ nextAlgo then .error .check
          else if nextSize ≤ right then removeInternal right size rest'
          else (removeInternal right size ((nextSize, nextAlgo, nextBorder) :: rest')).map ((size, algo, border) :: ·)
    else .ok ((size, algo, border) :: rest)

/-- The first loop, with its iterator at the first element not below left. -/
def removeFrom (right : Nat) (fromLeft : SelectionTable α) : TableResult α :=
  match fromLeft with
  | [] => .ok []
  | elem :: _ => removeInternal right elem.1 fromLeft

/-- What the second loop does with a right border between left and right: the range ends before left now. -/
def cutLeft (table : SelectionTable α) (left elemSize : Nat) (elem : α × SelectionBorder) : TableResult α :=
  if left = 0 then .error .check
  else
    match find table (left - 1) with
    | some (prevAlgo, prevBorder) =>
      if prevBorder ≠ .left then .error .check else eraseElem (assign table (left - 1) (prevAlgo, .both)) elemSize
    | none => eraseElem (assign table (left - 1) elem) elemSize

/-- What it does with a left border between left and right: the range begins after right now. Where the range has only
its right border left, the element is erased twice. -/
def cutRight (table : SelectionTable α) (right elemSize : Nat) (elem : α × SelectionBorder) : TableResult α :=
  if right = selectionMaxCollSize then .error .check
  else
    match find table (right + 1) with
    | some (nextAlgo, nextBorder) =>
      if nextBorder ≠ .right then .error .check
      else (eraseElem (assign table (right + 1) (nextAlgo, .both)) elemSize).bind fun table => eraseElem table elemSize
    | none => eraseElem (assign table (right + 1) elem) elemSize

/-- What it does with a right border beyond right: the new range is inside a wider one, which is split. -/
def splitAround (table : SelectionTable α) (left right elemSize : Nat) (elemAlgo : α) : TableResult α :=
  match before table elemSize with
  | none => .error .erased
  | some (prevSize, prevAlgo, prevBorder) =>
    if right = selectionMaxCollSize then .error .check
    else
      let table := assign table (right + 1) (elemAlgo, if elemSize = right + 1 then .both else .left)
      if prevBorder ≠ .left then .error .check
      else if elemAlgo ≠ prevAlgo then .error .check
      else
        let beforeLeft := (left + selectionMaxCollSize) % 2 ^ 64
        .ok (assign table beforeLeft (prevAlgo, if prevSize = beforeLeft then .both else .right))

/-- The second loop: adjust the remaining ranges. A turn that comes back to the loop has erased an element, so the number
of turns is bounded by the length of the table. -/
def adjustRemaining (left right : Nat) : Nat → SelectionTable α → TableResult α
  | 0, _ => .error .endless
  | fuel + 1, table =>
    match lowerBound table left with
    | none => .ok table
    | some (elemSize, elemAlgo, elemBorder) =>
      if elemBorder = .both then .error .check
      else if left ≤ elemSize ∧ elemSize ≤ right then
        if elemBorder = .right then
          (cutLeft table left elemSize (elemAlgo, elemBorder)).bind (adjustRemaining left right fuel)
        else (cutRight table right elemSize (elemAlgo, elemBorder)).bind (adjustRemaining left right fuel)
      else if elemBorder = .right then splitAround table left right elemSize elemAlgo
      else .ok table

/-- Then it is safe to add the borders of the new range. -/
def addBorders (table : SelectionTable α) (left right : Nat) (algo : α) : TableResult α :=
  if (find table left).isSome then .error .check
  else if (find table right).isSome then .error .check
  else if left = right then .ok (assign table left (algo, .both))
  else .ok (assign (assign table left (algo, .left)) right (algo, .right))

/-- The third loop, from the iterator on: merge adjacent ranges for the same algorithm. The iterator stands at `elem`. -/
def mergeAdjacent (elem : Nat × α × SelectionBorder) : SelectionTable α → TableResult α
  | [] => .ok [elem]
  | next :: rest =>
    if elem.2.2 = .left then (mergeAdjacent next rest).map (elem :: ·)
    else if next.2.2 = .right then .error .check
    else if (elem.1 + 1) % 2 ^ 64 = next.1 ∧ elem.2.1 = next.2.1 then
      -- a single entry becomes a left border, a right border goes away
      let merged := if elem.2.2 = .both then [(elem.1, elem.2.1, .left)] else []
      if next.2.2 = .both then (mergeAdjacent (next.1, next.2.1, .right) rest).map (merged ++ ·)
      else
        match rest with
        | [] => .ok merged
        | after :: rest => (mergeAdjacent after rest).map (merged ++ ·)
    else (mergeAdjacent next rest).map (elem :: ·)

def mergeTable (table : SelectionTable α) : TableResult α :=
  match table with
  | [] => .ok []
  | elem :: rest => mergeAdjacent elem rest

/-- `ccl_algorithm_selector_base::insert`. -/
def SelectionTable.insert (table : SelectionTable α) (left right : Nat) (algo : α) : TableResult α :=
  let below := table.filter fun elem => decide (elem.1 < left)
  let fromLeft := table.filter fun elem => decide (left ≤ elem.1)
  (removeFrom right fromLeft).bind fun rest =>
  (adjustRemaining left right ((below ++ rest).length + 1) (below ++ rest)).bind fun table =>
  (addBorders table left right algo).bind fun table => if table.length = 1 then .ok table else mergeTable table

end

end OneCcl
