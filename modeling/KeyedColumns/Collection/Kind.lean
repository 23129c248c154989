import KeyedColumns.Contents

/-!
# Kinds of collection

A lenient collection takes every entry. A deduplicating one has each key once. A view shows the
contents of another collection and changes nothing.
-/

namespace KeyedColumns

/-- How a collection treats what it is given. -/
inductive Kind where
  | lenient
  | dedupe
  | view
deriving DecidableEq

namespace Kind

def typeName : Kind → String
  | lenient => "Column_collection"
  | dedupe => "Dedupe_column_collection"
  | view => "Immutable_column_collection"

/-- A collection as text: its kind and its keys in order. -/
def print (k : Kind) (c : Contents) : String :=
  k.typeName ++ "[" ++ ", ".intercalate c.keys ++ "]"

end Kind

end KeyedColumns
