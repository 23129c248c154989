import KeyedColumns.Collection.Work

/-!
# Deduplicating collections

A deduplicating collection has each key once. Adding an item under a key that is there puts it in the
place of the old item; replacing takes out what stands under the item's key or name and puts the item
where the first of those stood. Every item is checked before anything changes.
-/

namespace KeyedColumns.Dedupe

open Routine

variable (column : ItemId → Column) (self : Reference)

/-- An item as a notice shows it. -/
def mention (i : ItemId) : Mention := ⟨(column i).name, i⟩

/-! ## Checks -/

/-- Whether an item is there, with the key it is given with, if any, and with one that is not empty. -/
def checkItem (item : Option ItemId) (given : Option String) : Routine Work Bool :=
  match item with
  | none => do
    emit .checkItem .nullItem
    return false
  | some i =>
    match given.filter (· ≠ (column i).key) with
    | some key => do
      report (.mismatchedKey (column i).name (column i).key key)
      emit .checkItem .keyMismatch
      return false
    | none =>
      if (column i).key = "" then do
        report (.emptyKey (mention column i))
        emit .checkItem .unnamedItem
        return false
      else do
        clear
        return true

/-- Checks items in order, up to the first that fails. With none to check, the code stays as it is. -/
def checkEach : List (Option ItemId × Option String) → Routine Work Bool
  | [] => return true
  | (item, given) :: rest => do
    if ← checkItem column item given then checkEach rest else return false

/-- Checks entries, each of which gives its key. -/
def checkGiven (given : List (String × Option ItemId)) : Routine Work Bool := do
  if ← checkEach column (given.map fun e => (e.2, some e.1)) then
    clear
    return true
  else return false

/-! ## Adding -/

/-- Puts an item into the entry at a position in the place of another, and nothing else moves. -/
def takePlace (c : Contents) (position : Nat) (old new : ItemId) (key : String) : Contents :=
  { sequence := ⟨c.entries.modify position fun e => { e with item := new }⟩
    index :=
      { c.index with
        byKey := c.index.byKey.put key new
        byPosition := c.index.byPosition.set position new }
    active := (c.active.erase old).insert new }

/-- Adds a checked item: at the end under a new key, else in the place of what the key has. -/
def put (c : Contents) (i : ItemId) : Done Bool :=
  let key := (column i).key
  match c.find? key with
  | none =>
    let c := c.append ⟨key, i⟩
    { value := true
      contents := c
      notices := [.appended .addChecked self (mention column i) key (c.size - 1)] }
  | some old =>
    if old = i then
      { value := false, contents := c, notices := [.alreadyPresent self (mention column i)] }
    else
      match c.index.firstPosition.find? key with
      | none => { value := false, contents := c, notices := [], breaches := [.noPosition key] }
      | some position =>
        { value := true
          contents := takePlace c position old i key
          notices := [.tookPlace self (mention column i) old key position]
          breaches :=
            if position < c.entries.length ∧ position < c.items.length then []
            else [.pastEnd position] }

/-- Runs an operation on each item of a list in turn; the value tells whether one changed anything. -/
def each (operation : Contents → ItemId → Done Bool) : Contents → List ItemId → Done Bool
  | c, [] => { value := false, contents := c, notices := [] }
  | c, i :: rest =>
    let first := operation c i
    let others := each operation first.contents rest
    { value := first.value || others.value
      contents := others.contents
      notices := first.notices ++ others.notices
      breaches := first.breaches ++ others.breaches }

/-- Adds an item that has been checked. -/
def addChecked (item : Option ItemId) : Routine Work Bool :=
  withItem item false fun i => perform (put column self · i)

/-- Adds all of some items that have been checked. -/
def addEach : List (Option ItemId) → Routine Work Bool
  | [] => return false
  | item :: rest => do
    let changed ← addChecked column self item
    let more ← addEach rest
    return changed || more

/-- Adds an item. A key given with it must be its own. -/
def add (item : Option ItemId) (key : Option String) : Routine Work Bool :=
  reporting .add do
    if ← checkItem column item key then addChecked column self item else return false

def extend (items : List (Option ItemId)) : Routine Work Bool :=
  reporting .extend do
    if ← checkEach column (items.map fun i => (i, none)) then addEach column self items
    else return false

/-- The items are added to the new collection in turn. -/
def construct (given : List (String × Option ItemId)) : Routine Work Unit :=
  constructing .dedupe do
    if ← checkGiven column given then
      let _ ← addEach column self (given.map (·.2))
      let c ← contents
      report (.created .dedupe (Kind.dedupe.print c) self c.size (some given.length))
    else report (.leftEmpty .dedupe self)

/-! ## Replacing -/

/-- The items that a new one displaces: by its key, and by its name if that finds another. -/
def displaced (c : Contents) (i : ItemId) : Option ItemId × Option ItemId :=
  let byKey := c.find? (column i).key
  let byName := c.find? (column i).name
  (byKey, if byName = byKey then none else byName)

/-- The entries before the first displaced one. -/
def before (c : Contents) (i : ItemId) : List Entry :=
  let (byKey, byName) := displaced column c i
  c.entries.takeWhile fun e => !(some e.item = byKey || some e.item = byName)

/-- The entries after the first displaced one that stay. -/
def after (c : Contents) (i : ItemId) : List Entry :=
  let (byKey, byName) := displaced column c i
  let stays := fun e : Entry => !(some e.item = byKey || some e.item = byName)
  (c.entries.dropWhile stays).filter stays

/-- Puts a checked item where the first displaced entry stood, or at the end. -/
def supplant (c : Contents) (i : ItemId) : Done Bool :=
  let (byKey, byName) := displaced column c i
  let position := (before column c i).length
  let entries := before column c i ++ ⟨(column i).key, i⟩ :: after column c i
  if entries = c.entries then
    { value := false
      contents := c
      notices := [.alreadyInPlace self (mention column i) position] }
  else
    let c := (c.withEntries entries).reindex
    { value := true
      contents := c
      notices := [.placed self (mention column i) position byKey byName c.size] }

/-- Replaces by an item that has been checked. -/
def replaceChecked (item : ItemId) : Routine Work Bool := perform (supplant column self · item)

def replaceEach : List ItemId → Routine Work Bool
  | [] => return false
  | i :: rest => do
    let changed ← replaceChecked column self i
    let more ← replaceEach rest
    return changed || more

/-- Puts an item in the place of those that its key and its name find. -/
def replace (item : Option ItemId) : Routine Work Bool :=
  reporting .replace do
    if ← checkItem column item none then
      withItem item true fun i => do
        let _ ← replaceChecked column self i
        return true
    else return false

/-! ## Removing -/

/-- Takes out the first entry that holds an item. -/
def takeOut (c : Contents) (i : ItemId) : Done Bool :=
  let position := c.entries.findIdx (·.item = i)
  let removed := (c.withEntries (c.entries.eraseIdx position)).reindex
  { value := true
    contents := removed
    notices := [.removed self (mention column i) position removed.size]
    breaches := if position < c.entries.length then [] else [.noEntry i] }

def remove (item : Option ItemId) : Routine Work Bool :=
  reporting .remove do
    match item with
    | none =>
      emit .remove .nullItem
      return false
    | some i =>
      let c ← contents
      if i ∈ c.active then
        let removed ← perform (takeOut column self · i)
        clear
        return removed
      else
        report (.notMember (Kind.dedupe.print c) (mention column i))
        emit .remove .itemNotFound
        return false

/-! ## Populating -/

/-- Whether an item's key is in use, or its name is and differs from the key. -/
def collides (c : Contents) (i : ItemId) : Bool :=
  let col := column i
  ((c.find? col.name).isSome && col.key ≠ col.name) || (c.find? col.key).isSome

/--
Appends the entries whose items do not collide when reached. The value tells whether there was one, and
what items are put off, in order.
-/
def appendApart : List (String × Option ItemId) → Routine Work (Bool × List ItemId)
  | [] => return (false, [])
  | (key, item) :: rest =>
    withItem item (false, []) fun i => do
      if collides column (← contents) i then
        let (changed, deferred) ← appendApart rest
        return (changed, i :: deferred)
      else
        append key item
        let (_, deferred) ← appendApart rest
        return (true, deferred)

/-- Appends the entries that collide with nothing, and replaces by the others after that. -/
def populate (given : List (String × Option ItemId)) : Routine Work Bool :=
  reporting .populate do
    if ← checkGiven column given then
      let (appended, deferred) ← appendApart column given
      let replaced ← replaceEach column self deferred
      report (.populated self given.length deferred.length (← contents).size)
      return replaced || appended
    else return false

end KeyedColumns.Dedupe
