import KeyedColumns.Notice

/-!
# Work on a collection

What a call on a collection runs on: the contents as they are by then, the error code that it writes to,
and what it has reported. Nothing is undone: what a call has written when it fails stays written.
-/

namespace KeyedColumns

/-- Something that a step relies on and that does not hold, so that there is no telling what it does. -/
inductive Breach where
  /-- An item is used that is not there. -/
  | missingItem
  /-- A key that finds an item has no position. -/
  | noPosition (key : String)
  | pastEnd (position : Nat)
  /-- No entry holds an item that is present. -/
  | noEntry (item : ItemId)
  /-- A code is written where there is none to write to. -/
  | missingCode
deriving DecidableEq

structure Work where
  contents : Contents
  /-- What the error code says that the call writes to, if it has one. -/
  code : Option ErrorCode
  notices : List Notice
  breaches : List Breach

/-- What an operation on contents gives: a value, other contents, and what there is to report. -/
structure Done (α : Type) where
  value : α
  contents : Contents
  notices : List Notice
  breaches : List Breach := []

namespace Done

def map {α β : Type} (f : α → β) (d : Done α) : Done β := { d with value := f d.value }

end Done

namespace Work

variable {α : Type}

def start (contents : Contents) (given : Option ErrorCode) : Work := ⟨contents, given, [], []⟩

/-- The work after an operation on the contents. -/
def after (w : Work) (d : Done α) : Work :=
  { w with
    contents := d.contents
    notices := w.notices ++ d.notices
    breaches := w.breaches ++ d.breaches }

def breach (w : Work) (b : Breach) : Work := { w with breaches := w.breaches ++ [b] }

def write (w : Work) (code : ErrorCode) : Work :=
  match w.code with
  | some _ => { w with code := some code }
  | none => w.breach .missingCode

end Work

namespace Routine

variable {α : Type}

/-! ## Steps -/

def contents : Routine Work Contents := Work.contents <$> get

def report (n : Notice) : Routine Work Unit := modify fun w => { w with notices := w.notices ++ [n] }

/-- Sets the code to a cause, and reports that it does. -/
def emit (operation : Operation) (error : CollectionError) : Routine Work Unit := do
  report (.emitted operation error)
  modify (·.write (.failed error))

def clear : Routine Work Unit := modify (·.write .success)

/-- Carries out an operation on the contents. It has nothing to do with the code. -/
def perform (operation : Contents → Done α) : Routine Work α := do
  let d := operation (← contents)
  modify (·.after d)
  return d.value

/-- Goes on with an item that has to be there; without one there is only `otherwise` to go on with. -/
def withItem (item : Option ItemId) (otherwise : α) (next : ItemId → Routine Work α) : Routine Work α :=
  match item with
  | some i => next i
  | none => do
    modify (·.breach .missingItem)
    return otherwise

/-- Appends an entry, without any checks. -/
def append (key : String) (item : Option ItemId) : Routine Work Unit :=
  withItem item () fun i => modify fun w => { w with contents := w.contents.append ⟨key, i⟩ }

/-! ## Where failures go -/

/-- Runs a routine on a code of its own, and gives what that says at the end. -/
def onCode (code : ErrorCode) (routine : Routine Work α) : Routine Work (α × ErrorCode) := do
  let outer := (← get).code
  modify ({ · with code := some code })
  let value ← routine
  let code := (← get).code.getD .success
  modify ({ · with code := outer })
  return (value, code)

/--
Runs the body of an operation, if it is called with a code. Else the operation calls itself with a fresh one,
`again`, and raises what that says.
-/
def entering (operation : Operation) (again body : Routine Work α) : Routine Work α := do
  let given := (← get).code
  match ← execute given (onCode · again) operation.name with
  | some value => return value
  | none => body

/-- An operation that writes its failures to a code, or raises them if it is called without one. -/
def reporting (operation : Operation) (body : Routine Work α) : Routine Work α :=
  -- The operation that is called again has a code, and then it is its body; see `reporting_eq`.
  entering operation body body

/--
A constructor. It writes to a code of its own if it is called without one, and raises at the end what its own
code says.
-/
def constructing (kind : Kind) (body : Routine Work Unit) : Routine Work Unit := do
  let given := (← get).code
  let (_, code) ← onCode (given.getD .success) body
  modify ({ · with code := given.map fun _ => code })
  let own := if given.isSome then ErrorCode.success else code
  if own.isFailure then throw ⟨own, (Operation.construct kind).name⟩

/-! ## Laws -/

theorem ext {first second : Routine Work α} (h : ∀ w, first.on w = second.on w) : first = second :=
  funext h

@[simp] theorem on_contents (w : Work) : contents.on w = (.ok w.contents, w) := rfl

@[simp] theorem on_report (n : Notice) (w : Work) :
    (report n).on w = (.ok (), { w with notices := w.notices ++ [n] }) := rfl

@[simp] theorem on_emit (operation : Operation) (error : CollectionError) (w : Work) :
    (emit operation error).on w = (.ok (),
      Work.write { w with notices := w.notices ++ [.emitted operation error] } (.failed error)) := rfl

@[simp] theorem on_clear (w : Work) : clear.on w = (.ok (), w.write .success) := rfl

@[simp] theorem on_perform (operation : Contents → Done α) (w : Work) :
    (perform operation).on w =
      (.ok (operation w.contents).value, w.after (operation w.contents)) := rfl

@[simp] theorem withItem_some (i : ItemId) (otherwise : α) (next : ItemId → Routine Work α) :
    withItem (some i) otherwise next = next i := rfl

@[simp] theorem on_append_some (key : String) (i : ItemId) (w : Work) :
    (append key (some i)).on w =
      (.ok (), { w with contents := w.contents.append ⟨key, i⟩ }) := rfl

theorem on_onCode (code : ErrorCode) (routine : Routine Work α) (w : Work) :
    (onCode code routine).on w = match routine.on { w with code := some code } with
      | (.ok value, done) =>
        (.ok (value, done.code.getD .success), { done with code := w.code })
      | (.error f, done) => (.error f, done) := by
  unfold onCode
  simp only [on_bind, on_get, on_modify, on_pure]
  obtain ⟨_ | _, _⟩ := routine.on { w with code := some code } <;> rfl

theorem reporting_on_code (operation : Operation) (body : Routine Work α) (c : Contents)
    (code : ErrorCode) (ns : List Notice) (bs : List Breach) :
    (reporting operation body).on ⟨c, some code, ns, bs⟩ = body.on ⟨c, some code, ns, bs⟩ := rfl

/-- An operation that is called without a code calls itself. -/
theorem reporting_eq (operation : Operation) (body : Routine Work α) :
    reporting operation body = entering operation (reporting operation body) body := by
  apply ext
  rintro ⟨c, code, ns, bs⟩
  cases code with
  | some code => rfl
  | none =>
    unfold reporting entering execute
    simp only [on_bind, on_get, on_onCode]
    rfl

theorem constructing_on_code (kind : Kind) (body : Routine Work Unit) (c : Contents)
    (code : ErrorCode) (ns : List Notice) (bs : List Breach) :
    (constructing kind body).on ⟨c, some code, ns, bs⟩ =
      match body.on ⟨c, some code, ns, bs⟩ with
      | (.ok _, w) => (.ok (), { w with code := some (w.code.getD .success) })
      | (.error f, w) => (.error f, w) := by
  unfold constructing
  simp only [on_bind, on_get, on_onCode, Option.getD_some]
  obtain ⟨f | _, w⟩ := body.on ⟨c, some code, ns, bs⟩ <;> rfl

end Routine

end KeyedColumns
