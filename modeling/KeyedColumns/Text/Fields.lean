import KeyedColumns.Column
import KeyedColumns.Error
import KeyedColumns.Log.Component
import KeyedColumns.Log.Severity

/-!
# Writing fields one after the other

A text is put together from fields of several types. A width holds for the next piece that is
written: that piece is padded on the left, and then there is no width again.
-/

namespace KeyedColumns.Text

/-- Something to write, or the width of what comes next. -/
inductive Field where
  | text (value : String)
  | number (value : Int)
  | flag (value : Bool)
  | severity (value : Log.Severity)
  /-- The name of one of the library's own components, by number. -/
  | component (number : UInt32)
  | code (value : ErrorCode)
  | column (value : Column)
  | width (bytes : Nat)

/-- The pieces in which a field is written. A width writes nothing. -/
def Field.pieces : Field → List String
  | text s => [s]
  | number n => [decimal n]
  | flag b => [if b then "1" else "0"]
  | severity s => [s.name]
  | component n => [Log.Component.ownName n]
  | code c => c.pieces
  | column c => c.pieces
  | width _ => []

/-- What has been written, and the width that waits for the next piece. -/
structure Writing where
  text : String
  width : Nat

namespace Writing

/-- Writes one piece, under the width that waits. -/
def piece (w : Writing) (s : String) : Writing := ⟨w.text ++ padLeft w.width s, 0⟩

def field (w : Writing) (f : Field) : Writing :=
  match f with
  | .width n => { w with width := n }
  | f => f.pieces.foldl piece w

end Writing

/-- A text and after it some fields. No width waits at the start. -/
def appendFields (target : String) (fields : List Field) : String :=
  (fields.foldl Writing.field ⟨target, 0⟩).text

def ofFields (fields : List Field) : String := appendFields "" fields

end KeyedColumns.Text
