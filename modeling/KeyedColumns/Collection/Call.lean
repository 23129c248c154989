import KeyedColumns.Collection.Dedupe
import KeyedColumns.Collection.Lenient
import KeyedColumns.Collection.Lookup

/-!
# Calls

The calls on a collection that may fail, as data, and what runs for each on a collection of each kind.
-/

namespace KeyedColumns

/-- A call that may fail. An item that is absent may be given; most calls refuse it. -/
inductive Call where
  | lookupKey (key : String)
  | lookupPosition (position : Nat)
  | containsItem (item : Option ItemId)
  | add (item : Option ItemId) (key : Option String)
  | extend (items : List (Option ItemId))
  | replace (item : Option ItemId)
  | remove (item : Option ItemId)
  | populate (entries : List (String × Option ItemId))
deriving DecidableEq

inductive Result where
  | flag (value : Bool)
  | item (value : Option ItemId)
deriving DecidableEq

namespace Call

def operation : Call → Operation
  | lookupKey _ | lookupPosition _ => .lookup
  | containsItem _ => .contains
  | add .. => .add
  | extend _ => .extend
  | replace _ => .replace
  | remove _ => .remove
  | populate _ => .populate

/-- Whether a kind of collection has the call. A lenient collection only grows. -/
def isFor (kind : Kind) : Call → Bool
  | replace _ | remove _ | populate _ => kind ≠ .lenient
  | _ => true

def items : Call → List ItemId
  | lookupKey _ | lookupPosition _ => []
  | containsItem i | add i _ | replace i | remove i => i.toList
  | extend is => is.filterMap id
  | populate es => es.filterMap (·.2)

/-- A view refuses every call that would change it. -/
def refuse (operation : Operation) : Routine Work Bool := do
  let c ← Routine.contents
  Routine.report (.refused (Kind.view.print c) operation)
  Routine.emit .refuse .immutable
  return false

/-- What runs when a collection of a kind, known under `self`, is called. -/
def routine (column : ItemId → Column) (self : Reference) (kind : Kind) (call : Call) :
    Routine Work Result :=
  match kind, call with
  | _, lookupKey key => .item <$> Lookup.byKey kind key
  | _, lookupPosition position => .item <$> Lookup.byPosition kind position
  | _, containsItem item => .flag <$> Lookup.byItem kind item
  | .view, call => .flag <$> Routine.reporting call.operation (refuse call.operation)
  | .lenient, add item key => .flag <$> Lenient.add column self item key
  | .lenient, extend items => .flag <$> Lenient.extend column self items
  | .dedupe, add item key => .flag <$> Dedupe.add column self item key
  | .dedupe, extend items => .flag <$> Dedupe.extend column self items
  | _, replace item => .flag <$> Dedupe.replace column self item
  | _, remove item => .flag <$> Dedupe.remove column self item
  | _, populate entries => .flag <$> Dedupe.populate column self entries

end Call

/-- What runs when a collection of a kind is made. A view starts empty and takes no code. -/
def Kind.routine (column : ItemId → Column) (self : Reference) (kind : Kind)
    (given : List (String × Option ItemId)) : Routine Work Unit :=
  match kind with
  | .lenient => Lenient.construct self given
  | .dedupe => Dedupe.construct column self given
  | .view => return ()

end KeyedColumns
