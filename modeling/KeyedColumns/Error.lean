import KeyedColumns.Text.Layout

/-!
# Errors of a collection

The causes for which a call on a collection fails, the code a caller is given for them, and the
text of a failure that is raised instead.
-/

namespace KeyedColumns

/-- Why a call on a collection failed. -/
inductive CollectionError where
  /-- The key given with an item is not the item's own. -/
  | keyMismatch
  | nullItem
  | unnamedItem
  | keyNotFound
  | itemNotFound
  | positionOutOfRange
  /-- Membership was asked for an item, not for a key. -/
  | membershipRequiresKey
  /-- The collection is a view. -/
  | immutable
deriving DecidableEq

namespace CollectionError

/-- All causes, in the order of their numbers. -/
def all : List CollectionError :=
  [keyMismatch, nullItem, unnamedItem, keyNotFound, itemNotFound, positionOutOfRange,
    membershipRequiresKey, immutable]

/-- The causes are numbered from 1. -/
def number : CollectionError → Nat
  | keyMismatch => 1
  | nullItem => 2
  | unnamedItem => 3
  | keyNotFound => 4
  | itemNotFound => 5
  | positionOutOfRange => 6
  | membershipRequiresKey => 7
  | immutable => 8

def ofNumber? (n : Nat) : Option CollectionError :=
  all.find? (·.number = n)

theorem ofNumber?_number (e : CollectionError) : ofNumber? e.number = some e := by
  cases e <;> rfl

def message : CollectionError → String
  | keyMismatch =>
    "Explicit key does not match the item's own key; a deduplicating collection requires them to be equal."
  | nullItem => "Null item handle supplied where an item is required."
  | unnamedItem => "Item has an empty key; a deduplicating collection cannot index it."
  | keyNotFound => "No item is indexed under the given key."
  | itemNotFound => "The given item is not a member of the collection."
  | positionOutOfRange => "Position is not less than the collection size."
  | membershipRequiresKey =>
    "Membership test requires a string key; use contains_column() to test item membership."
  | immutable => "Collection is immutable; mutating operations are not supported."

end CollectionError

/-- What a caller's error code says of a call. -/
inductive ErrorCode where
  | success
  | failed (error : CollectionError)
deriving DecidableEq

namespace ErrorCode

def error? : ErrorCode → Option CollectionError
  | success => none
  | failed e => some e

def isFailure (c : ErrorCode) : Bool := c.error?.isSome

/-- The number of the cause: 0 for success. -/
def value : ErrorCode → Nat
  | success => 0
  | failed e => e.number

/-- The family of codes to which this one belongs. -/
def category : ErrorCode → String
  | success => "system"
  | failed _ => "keyseq_collection"

/-- The pieces in which a code is written: `category`, a colon and the value. -/
def pieces (c : ErrorCode) : List String := [c.category, ":", Text.digits c.value]

/-- A code as text: `category:value`. -/
def text (c : ErrorCode) : String := String.join c.pieces

end ErrorCode

/-- A failure that is raised: its code, and where it happened. -/
structure Failure where
  code : ErrorCode
  context : String

namespace Failure

/-- The context, and after it the wording and the text of the code unless that is success. -/
def description (f : Failure) : String :=
  match f.code.error? with
  | none => f.context
  | some e => f.context ++ ": " ++ e.message ++ " [" ++ f.code.text ++ "]"

/-- What a failure says: its description up to the first NUL. -/
def what (f : Failure) : String := Text.beforeNul f.description

end Failure

/-! ## The two ways to report a failure -/

/-- What runs on a state and gives a value or raises a failure. A failure does not undo what was done. -/
abbrev Routine (σ : Type) : Type → Type := ExceptT Failure (StateM σ)

namespace Routine

variable {σ α β : Type}

/-- What a routine comes to from a state, and the state that it leaves. -/
def on (routine : Routine σ α) (s : σ) : Except Failure α × σ := StateT.run (ExceptT.run routine) s

/--
Makes a call on a fresh code and raises what that says, unless the caller brought a code: then the call is
left to the caller.
-/
def execute (given : Option ErrorCode) (call : ErrorCode → Routine σ (α × ErrorCode))
    (context : String) : Routine σ (Option α) :=
  match given with
  | some _ => return none
  | none => do
    let (value, code) ← call .success
    if code.isFailure then throw ⟨code, context⟩ else return some value

/-! ### Laws -/

@[simp] theorem on_pure (a : α) (s : σ) : (pure a : Routine σ α).on s = (.ok a, s) := rfl

@[simp] theorem on_throw (f : Failure) (s : σ) : (throw f : Routine σ α).on s = (.error f, s) := rfl

@[simp] theorem on_modify (f : σ → σ) (s : σ) : (modify f : Routine σ PUnit).on s = (.ok ⟨⟩, f s) := rfl

@[simp] theorem on_get (s : σ) : (get : Routine σ σ).on s = (.ok s, s) := rfl

@[simp] theorem on_bind (routine : Routine σ α) (next : α → Routine σ β) (s : σ) :
    (routine >>= next).on s = match routine.on s with
      | (.ok a, s) => (next a).on s
      | (.error f, s) => (.error f, s) := by
  show (ExceptT.bindCont next (routine.on s).1).run (routine.on s).2 = _
  obtain ⟨_ | _, _⟩ := routine.on s <;> rfl

@[simp] theorem on_map (f : α → β) (routine : Routine σ α) (s : σ) :
    (f <$> routine).on s = match routine.on s with
      | (.ok a, s) => (.ok (f a), s)
      | (.error e, s) => (.error e, s) := by
  rw [map_eq_pure_bind, on_bind]
  rfl

end Routine

end KeyedColumns
