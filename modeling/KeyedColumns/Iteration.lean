import KeyedColumns.Contents

/-!
# Iterators

Iteration goes over a snapshot of the items, taken when it begins. Each snapshot has a serial number,
so that iterators over two snapshots of the same items can be told apart.
-/

namespace KeyedColumns

/-- The items of a collection at one moment. -/
structure Snapshot where
  serial : Nat
  items : List ItemId
deriving DecidableEq

/-- A place in a snapshot. An iterator without a snapshot is past the end. -/
structure Iterator where
  snapshot : Option Snapshot
  index : Nat
deriving DecidableEq

namespace Iterator

def past : Iterator := ⟨none, 0⟩

def first (s : Snapshot) : Iterator := ⟨some s, 0⟩

def atEnd (it : Iterator) : Bool :=
  match it.snapshot with
  | none => true
  | some s => it.index = s.items.length

def item? (it : Iterator) : Option ItemId := it.snapshot.bind fun s => s.items[it.index]?

def next (it : Iterator) : Iterator := { it with index := it.index + 1 }

def advance (it : Iterator) (steps : Nat) : Iterator := { it with index := it.index + steps }

/-- All ends are the same; elsewhere both the snapshot and the place must be the same. -/
def same (it that : Iterator) : Bool :=
  if it.atEnd || that.atEnd then it.atEnd == that.atEnd
  else it.snapshot.map (·.serial) = that.snapshot.map (·.serial) && it.index = that.index

def remaining (it : Iterator) : Nat :=
  match it.snapshot with
  | none => 0
  | some s => s.items.length - it.index

theorem advance_succ (it : Iterator) (steps : Nat) : it.advance (steps + 1) = (it.advance steps).next := rfl

end Iterator

end KeyedColumns
