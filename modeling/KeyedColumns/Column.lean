import KeyedColumns.Dict

/-!
# Columns and the catalogue of items

Collections hold items by identity. The catalogue knows the column behind each item; two items with
equal columns are still two items.
-/

namespace KeyedColumns

/-- A named column. The key is what a collection indexes it under. -/
structure Column where
  name : String
  key : String
deriving DecidableEq

namespace Column

def named (name : String) : Column := ⟨name, name⟩

/-- The pieces in which a column is written. The key is shown only if it differs from the name. -/
def pieces (c : Column) : List String :=
  ["Column[", c.name] ++ (if c.key = c.name then [] else [" key=", c.key]) ++ ["]"]

def text (c : Column) : String := String.join c.pieces

instance : Inhabited Column := ⟨named ""⟩

end Column

/-- The identity of an item. -/
inductive ItemId where
  /-- An item that was made under a label. -/
  | made (label : String)
  /-- An item that an archive restored, by the order of restoring, from 1. -/
  | restored (serial : Nat)
deriving DecidableEq

namespace ItemId

/-- How an item is referred to in answers and messages. -/
def label : ItemId → String
  | made label => label
  | restored n => "L" ++ toString n

end ItemId

/-- All items there are, and the column behind each. -/
structure Catalogue where
  columns : Dict ItemId Column
  restored : Nat

namespace Catalogue

def empty : Catalogue := ⟨Dict.empty, 0⟩

def column (c : Catalogue) (i : ItemId) : Column := (c.columns.find? i).getD default

def knows (c : Catalogue) (i : ItemId) : Bool := c.columns.contains i

/-- The items, in the order in which they came. -/
def items (c : Catalogue) : List ItemId := c.columns.keys

/-- Makes an item under a label that is not in use. -/
def make (c : Catalogue) (label : String) (column : Column) : Catalogue :=
  { c with columns := c.columns.addNew (.made label) column }

def setKey (c : Catalogue) (i : ItemId) (key : String) : Catalogue :=
  { c with columns := c.columns.put i { c.column i with key } }

def nextRestored (c : Catalogue) : ItemId := .restored (c.restored + 1)

def restore (c : Catalogue) (column : Column) : Catalogue :=
  { columns := c.columns.put c.nextRestored column, restored := c.restored + 1 }

/-! ## Laws -/

theorem column_setKey (c : Catalogue) (i j : ItemId) (key : String) :
    (c.setKey i key).column j = if i = j then { c.column i with key } else c.column j := by
  simp only [column, setKey, Dict.find?_put]
  split <;> simp

theorem column_restore (c : Catalogue) (column : Column) (i : ItemId) :
    (c.restore column).column i = if c.nextRestored = i then column else c.column i := by
  simp only [Catalogue.column, restore, Dict.find?_put]
  split <;> simp

end Catalogue

end KeyedColumns
