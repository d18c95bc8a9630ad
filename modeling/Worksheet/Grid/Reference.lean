import Worksheet.Grid.Position

/-!
# References

A formula names cells by references. Each coordinate of a reference is fixed, or an offset from the
cell that the formula stands in, so that a formula can be read at another cell. A reference may lead
off the grid there. Coordinates are signed words of 64 bits: a distance wraps where it does not fit,
and an index past the largest signed word counts back from zero.

Results:
* `Coord.resolve_leading`: the coordinate from a base to an index leads from that base to the index.
-/
namespace Worksheet

/-- A column or a row of a reference: fixed, or so far from the one of the formula's cell. -/
inductive Coord where
  | fixed (index : Int64)
  | offset (distance : Int64)
  deriving DecidableEq, Repr

namespace Coord

/-- The coordinate that leads from `base` to `index`. -/
def leading (isFixed : Bool) (index base : UInt64) : Coord :=
  if isFixed then .fixed index.toInt64 else .offset (index.toInt64 - base.toInt64)

/-- Where a coordinate leads from `base`. -/
def resolve (base : UInt64) : Coord → Int64
  | .fixed index => index
  | .offset distance => base.toInt64 + distance

def marker : Coord → List Char
  | .fixed _ => ['$']
  | .offset _ => []

@[simp] theorem resolve_leading (isFixed : Bool) (index base : UInt64) :
    (leading isFixed index base).resolve base = index.toInt64 := by
  cases isFixed
  · simp only [leading, Bool.false_eq_true, if_false, resolve]
    rw [Int64.add_comm, Int64.sub_add_cancel]
  · rfl

end Coord

/-- mirrors `CellRef` -/
structure Reference where
  col : Coord
  row : Coord
  deriving DecidableEq, Repr

namespace Reference

def ofAddress (base : Position) (a : Address) : Reference where
  col := .leading a.colFixed a.col base.col
  row := .leading a.rowFixed a.row base.row

/-- The reference that a text makes in a formula at `base`.
mirrors `CellRef.parse` -/
def read (base : Position) (text : String) : Except BadAddress Reference :=
  (Address.read text).map (ofAddress base)

/-- The cell a reference leads to in a formula at `base`, if it is on the grid.
mirrors `CellRef.resolve` -/
def resolve? (r : Reference) (base : Position) : Option Position :=
  Position.onGrid? (r.col.resolve base.col) (r.row.resolve base.row)

/-- How a reference is written in a formula at `base`.
mirrors `CellRef.to_text` -/
def text (r : Reference) (base : Position) : String :=
  match r.resolve? base with
  | none => "#REF!"
  | some p => String.ofList
      (r.col.marker ++ Position.letter p.col :: (r.row.marker ++ Position.numeral p.row))

end Reference

end Worksheet
