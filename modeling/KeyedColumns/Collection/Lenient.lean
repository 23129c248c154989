import KeyedColumns.Collection.Work

/-!
# Lenient collections

A lenient collection appends whatever it is given, under any key, as long as there is an item. A
batch is checked before its first item goes in.
-/

namespace KeyedColumns.Lenient

open Routine

/-! ## Checks -/

/-- Whether all of the entries to start from have an item. -/
def checkItems : List (String × Option ItemId) → Routine Work Bool
  | [] => do
    clear
    return true
  | (key, none) :: _ => do
    report (.nullEntry key)
    emit .checkItems .nullItem
    return false
  | (_, some _) :: rest => checkItems rest

/-- Whether no item of a batch is missing. That all are there is not written to the code yet. -/
def checkBatch : List (Option ItemId) → Routine Work Bool
  | [] => return true
  | none :: _ => do
    emit .extend .nullItem
    return false
  | some _ :: rest => checkBatch rest

variable (column : ItemId → Column) (self : Reference)

/-! ## Operations -/

def construct (given : List (String × Option ItemId)) : Routine Work Unit :=
  constructing .lenient do
    if ← checkItems given then
      given.forM fun e => append e.1 e.2
      let c ← contents
      report (.created .lenient (Kind.lenient.print c) self c.size none)
    else report (.leftEmpty .lenient self)

/-- Appends an item under a key. -/
def addUnder (item : Option ItemId) (key : String) : Routine Work Bool :=
  reporting .add do
    match item with
    | none =>
      emit .add .nullItem
      return false
    | some i =>
      append key (some i)
      let c ← contents
      report (.appended .add self ⟨(column i).name, i⟩ key (c.size - 1))
      clear
      return true

/-- Appends an item under its own key, for which there has to be an item first. -/
def addOwn (item : Option ItemId) : Routine Work Bool :=
  reporting .add do
    match item with
    | none =>
      emit .add .nullItem
      return false
    | some i => addUnder column self (some i) (column i).key

def add (item : Option ItemId) : Option String → Routine Work Bool
  | some key => addUnder column self item key
  | none => addOwn column self item

/-- Appends items, each under its own key. -/
def extend (items : List (Option ItemId)) : Routine Work Bool :=
  reporting .extend do
    if ← checkBatch items then
      items.forM fun item => withItem item () fun i => append (column i).key (some i)
      let c ← contents
      report (.extended self items.length c.size)
      clear
      return true
    else return false

end KeyedColumns.Lenient
