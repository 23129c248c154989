import KeyedColumns.Collection.Work

/-!
# Looking things up

Reads that may fail. They are the same for every kind of collection and leave its contents alone.
-/

namespace KeyedColumns.Lookup

open Routine

def byKey (kind : Kind) (key : String) : Routine Work (Option ItemId) :=
  reporting .lookup do
    let c ← contents
    match c.find? key with
    | none =>
      report (.missingKey (kind.print c) key)
      emit .lookup .keyNotFound
      return none
    | some i =>
      clear
      return some i

def byPosition (kind : Kind) (position : Nat) : Routine Work (Option ItemId) :=
  reporting .lookup do
    let c ← contents
    match c.items[position]? with
    | none =>
      report (.pastEnd (kind.print c) position c.items.length)
      emit .lookup .positionOutOfRange
      return none
    | some i =>
      clear
      return some i

/-- Membership is by key, so asking for an item always fails. -/
def byItem (kind : Kind) (item : Option ItemId) : Routine Work Bool :=
  reporting .contains do
    let c ← contents
    report (.askedForItem (kind.print c) item)
    emit .contains .membershipRequiresKey
    return false

end KeyedColumns.Lookup
