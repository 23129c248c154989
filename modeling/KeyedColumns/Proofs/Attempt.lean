import KeyedColumns.Registry

/-!
# What calls come to

A call as a whole: it is refused for a cause, or it is done, with a value and contents. Checks come first
here, and what is done is done to what has been checked. That what runs comes to the same, step by step, is
shown in `KeyedColumns.Proofs.Routines`.
-/

namespace KeyedColumns

/-- A call that failed: the cause and what was reported. -/
structure Refusal where
  error : CollectionError
  notices : List Notice

namespace Refusal

/-- The failure of an operation, after some notices about what is wrong. -/
def of (operation : Operation) (error : CollectionError) (details : List Notice) : Refusal :=
  ⟨error, details ++ [.emitted operation error]⟩

end Refusal

/-! ## Lookups -/

namespace Contents

def lookupKey (kind : Kind) (c : Contents) (key : String) : Except Refusal (Done (Option ItemId)) :=
  match c.find? key with
  | some i => .ok { value := some i, contents := c, notices := [] }
  | none => .error (.of .lookup .keyNotFound [.missingKey (kind.print c) key])

def lookupPosition (kind : Kind) (c : Contents) (position : Nat) :
    Except Refusal (Done (Option ItemId)) :=
  match c.items[position]? with
  | some i => .ok { value := some i, contents := c, notices := [] }
  | none => .error (.of .lookup .positionOutOfRange [.pastEnd (kind.print c) position c.items.length])

/-- Membership is by key, so asking for an item always fails. -/
def refuseItem (kind : Kind) (c : Contents) (item : Option ItemId) : Except Refusal (Done Bool) :=
  .error (.of .contains .membershipRequiresKey [.askedForItem (kind.print c) item])

end Contents

/-! ## Lenient collections -/

namespace Lenient

/-- The entries to start from, all of which need an item. -/
def checkEntries : List (String × Option ItemId) → Except Refusal (List Entry)
  | [] => .ok []
  | (key, none) :: _ => .error (.of .checkItems .nullItem [.nullEntry key])
  | (key, some i) :: rest =>
    match checkEntries rest with
    | .ok entries => .ok (⟨key, i⟩ :: entries)
    | .error r => .error r

def tryConstruct (self : Reference) (given : List (String × Option ItemId)) :
    Except Refusal (Done Unit) :=
  match checkEntries given with
  | .error r => .error r
  | .ok entries =>
    let c := entries.foldl Contents.append Contents.empty
    .ok
      { value := ()
        contents := c
        notices := [.created .lenient (Kind.lenient.print c) self c.size none] }

variable (column : ItemId → Column) (self : Reference)

def tryAdd (c : Contents) (item : Option ItemId) (key : Option String) :
    Except Refusal (Done Bool) :=
  match item with
  | none => .error (.of .add .nullItem [])
  | some i =>
    let key := key.getD (column i).key
    let c := c.append ⟨key, i⟩
    .ok
      { value := true
        contents := c
        notices := [.appended .add self ⟨(column i).name, i⟩ key (c.size - 1)] }

/-- All items of a batch, if none is missing. -/
def allPresent (items : List (Option ItemId)) : Option (List ItemId) := items.mapM id

def tryExtend (c : Contents) (items : List (Option ItemId)) : Except Refusal (Done Bool) :=
  match allPresent items with
  | none => .error (.of .extend .nullItem [])
  | some present =>
    let c := (present.map fun i => ⟨(column i).key, i⟩).foldl Contents.append c
    .ok
      { value := true
        contents := c
        notices := [.extended self items.length c.size] }

theorem allPresent_eq_some_iff {items : List (Option ItemId)} {is : List ItemId} :
    allPresent items = some is ↔ items = is.map some := by
  unfold allPresent
  induction items generalizing is with
  | nil => cases is <;> simp
  | cons o rest ih =>
    cases o with
    | none => cases is <;> simp
    | some i =>
      cases is with
      | nil => simp [Option.bind_eq_some_iff]
      | cons j js =>
        rw [List.map_cons, List.cons.injEq, Option.some.injEq, ← ih, and_comm]
        simp [Option.bind_eq_some_iff]

theorem allPresent_eq_none_iff {items : List (Option ItemId)} :
    allPresent items = none ↔ none ∈ items := by
  unfold allPresent
  induction items with
  | nil => simp
  | cons item rest ih =>
    cases item with
    | none => simp
    | some i =>
      rw [List.mem_cons, ← ih]
      cases h : rest.mapM id <;> simp [h]

end Lenient

/-! ## Deduplicating collections -/

namespace Dedupe

variable (column : ItemId → Column) (self : Reference)

/-- An item must be there, its key must be the one it is given with, if any, and not be empty. -/
def check (item : Option ItemId) (given : Option String) : Except Refusal ItemId :=
  match item with
  | none => .error (.of .checkItem .nullItem [])
  | some i =>
    match given.filter (· ≠ (column i).key) with
    | some key =>
      .error (.of .checkItem .keyMismatch [.mismatchedKey (column i).name (column i).key key])
    | none =>
      if (column i).key = "" then .error (.of .checkItem .unnamedItem [.emptyKey (mention column i)])
      else .ok i

/-- Checks items in order, up to the first that fails. -/
def checkAll : List (Option ItemId × Option String) → Except Refusal (List ItemId)
  | [] => .ok []
  | (item, given) :: rest =>
    match check column item given with
    | .error r => .error r
    | .ok i =>
      match checkAll rest with
      | .error r => .error r
      | .ok items => .ok (i :: items)

/-- Checks entries, each of which gives its key. -/
def checkEntries (given : List (String × Option ItemId)) : Except Refusal (List ItemId) :=
  checkAll column (given.map fun e => (e.2, some e.1))

def tryAdd (c : Contents) (item : Option ItemId) (key : Option String) :
    Except Refusal (Done Bool) :=
  match check column item key with
  | .error r => .error r
  | .ok i => .ok (put column self c i)

def tryExtend (c : Contents) (items : List (Option ItemId)) : Except Refusal (Done Bool) :=
  match checkAll column (items.map fun i => (i, none)) with
  | .error r => .error r
  | .ok checked => .ok (each (put column self) c checked)

def tryConstruct (given : List (String × Option ItemId)) : Except Refusal (Done Unit) :=
  match checkEntries column given with
  | .error r => .error r
  | .ok items =>
    let d := each (put column self) Contents.empty items
    let c := d.contents
    .ok
      { value := ()
        contents := c
        notices :=
          d.notices ++ [.created .dedupe (Kind.dedupe.print c) self c.size (some given.length)]
        breaches := d.breaches }

def tryReplace (c : Contents) (item : Option ItemId) : Except Refusal (Done Bool) :=
  match check column item none with
  | .error r => .error r
  | .ok i => .ok { supplant column self c i with value := true }

def tryRemove (c : Contents) (item : Option ItemId) : Except Refusal (Done Bool) :=
  match item with
  | none => .error (.of .remove .nullItem [])
  | some i =>
    if i ∈ c.active then .ok (takeOut column self c i)
    else .error (.of .remove .itemNotFound [.notMember (Kind.dedupe.print c) (mention column i)])

/-- Appends the items that do not collide when reached; the others are put off, in order. -/
def appendFree : Contents → List ItemId → Contents × List ItemId
  | c, [] => (c, [])
  | c, i :: rest =>
    if collides column c i then
      let (c, deferred) := appendFree c rest
      (c, i :: deferred)
    else appendFree (c.append ⟨(column i).key, i⟩) rest

theorem deferred_sublist (c : Contents) (is : List ItemId) :
    (appendFree column c is).2.Sublist is := by
  induction is generalizing c with
  | nil => exact .slnil
  | cons i rest ih =>
    unfold appendFree
    split
    · exact (ih c).cons_cons i
    · exact (ih _).cons i

def tryPopulate (c : Contents) (given : List (String × Option ItemId)) : Except Refusal (Done Bool) :=
  match checkEntries column given with
  | .error r => .error r
  | .ok items =>
    let (appended, deferred) := appendFree column c items
    let d := each (supplant column self) appended deferred
    .ok
      { value := deferred.length < items.length || d.value
        contents := d.contents
        notices :=
          d.notices ++ [.populated self given.length deferred.length d.contents.size]
        breaches := d.breaches }

end Dedupe

/-! ## Calls and constructions -/

namespace Call

/-- What a call that fails returns. -/
def neutral : Call → Result
  | lookupKey _ | lookupPosition _ => .item none
  | _ => .flag false

/-- Why a view refuses a call. -/
def refusal (c : Contents) (operation : Operation) : Refusal :=
  .of .refuse .immutable [.refused (Kind.view.print c) operation]

/-- What a call comes to. -/
def attempt (column : ItemId → Column) (self : Reference) (kind : Kind) (c : Contents)
    (call : Call) : Except Refusal (Done Result) :=
  match kind, call with
  | _, lookupKey key => (c.lookupKey kind key).map (·.map .item)
  | _, lookupPosition position => (c.lookupPosition kind position).map (·.map .item)
  | _, containsItem item => (c.refuseItem kind item).map (·.map .flag)
  | .view, call => .error (refusal c call.operation)
  | .lenient, add item key => (Lenient.tryAdd column self c item key).map (·.map .flag)
  | .lenient, extend items => (Lenient.tryExtend column self c items).map (·.map .flag)
  | .dedupe, add item key => (Dedupe.tryAdd column self c item key).map (·.map .flag)
  | .dedupe, extend items => (Dedupe.tryExtend column self c items).map (·.map .flag)
  | _, replace item => (Dedupe.tryReplace column self c item).map (·.map .flag)
  | _, remove item => (Dedupe.tryRemove column self c item).map (·.map .flag)
  | _, populate entries => (Dedupe.tryPopulate column self c entries).map (·.map .flag)

/-- The one call that says nothing of its success. -/
def Silent (kind : Kind) (call : Call) : Prop := kind = .dedupe ∧ call = .extend []

instance (kind : Kind) (call : Call) : Decidable (call.Silent kind) :=
  inferInstanceAs (Decidable (_ ∧ _))

end Call

/-- What a construction comes to. -/
def Kind.construct (column : ItemId → Column) (self : Reference) (kind : Kind)
    (given : List (String × Option ItemId)) : Except Refusal (Done Unit) :=
  match kind with
  | .lenient => Lenient.tryConstruct self given
  | .dedupe => Dedupe.tryConstruct column self given
  | .view => .ok { value := (), contents := Contents.empty, notices := [] }

def Registry.attempt (r : Registry) (slot : String) (c : Collection) (call : Call) :
    Except Refusal (Done Result) :=
  call.attempt r.catalogue.column (.slot slot) c.kind (r.contents c)

/-! ## What shows of an attempt -/

section

variable {α β : Type}

/-- What an attempt fails with. -/
def errorOf : Except Refusal α → Option CollectionError
  | .ok _ => none
  | .error f => some f.error

/-- What a code is meant to say of an attempt. -/
def codeOf : Except Refusal (Done α) → ErrorCode
  | .error f => .failed f.error
  | .ok _ => .success

def contentsAfter (before : Contents) : Except Refusal (Done α) → Contents
  | .ok d => d.contents
  | .error _ => before

/-- What is reported by an attempt. -/
def noticesOf : Except Refusal (Done α) → List Notice
  | .ok d => d.notices
  | .error f => f.notices

/-- What an attempt relies on that is missing. A refusal comes before anything that could be. -/
def breachesOf : Except Refusal (Done α) → List Breach
  | .ok d => d.breaches
  | .error _ => []

@[simp] theorem errorOf_map (f : α → β) (x : Except Refusal α) : errorOf (x.map f) = errorOf x := by
  cases x <;> rfl

@[simp] theorem contentsAfter_map (before : Contents) (f : α → β) (x : Except Refusal (Done α)) :
    contentsAfter before (x.map (·.map f)) = contentsAfter before x := by
  cases x <;> rfl

@[simp] theorem breachesOf_map (f : α → β) (x : Except Refusal (Done α)) :
    breachesOf (x.map (·.map f)) = breachesOf x := by
  cases x <;> rfl

theorem exists_error {x : Except Refusal α} {e : CollectionError} (h : errorOf x = some e) :
    ∃ f, x = .error f := by
  cases x with
  | ok _ => cases h
  | error f => exact ⟨f, rfl⟩

end

/-! ## What callers get -/

/-- What the caller of a call that failed gets. -/
def Mode.failure (mode : Mode) (call : Call) (error : CollectionError) : Reply :=
  match mode with
  | code _ => .coded call.neutral (.failed error)
  | raising => .raised ⟨.failed error, call.operation.name⟩

/-- What the caller of a call that succeeded gets. Only a call that clears the caller's code sets it. -/
def Mode.success (mode : Mode) (clears : Bool) (result : Result) : Reply :=
  match mode with
  | code before => .coded result (if clears then .success else before)
  | raising => .returned result

/-- What the caller of a construction that failed gets. -/
def Mode.constructFailure (mode : Mode) (kind : Kind) (error : CollectionError) : Reply :=
  match mode with
  | code _ => .coded (.flag true) (.failed error)
  | raising => .raised ⟨.failed error, (Operation.construct kind).name⟩

/-- What the caller gets for an attempt. -/
def Registry.reply (mode : Mode) (kind : Kind) (call : Call) : Except Refusal (Done Result) → Reply
  | .ok d => mode.success (!decide (call.Silent kind)) d.value
  | .error f => mode.failure call f.error

end KeyedColumns
