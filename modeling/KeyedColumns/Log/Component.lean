import KeyedColumns.Text.Layout

/-!
# Components of log messages

A message may carry the component that logs it: a number of one of the library's own components, or a
number of some other enumeration. Numbers of different enumerations never meet.
-/

namespace KeyedColumns.Log

/-- The components whose verbosity can be set. -/
inductive OwnComponent where
  | log
  | error
  | collection
deriving DecidableEq

namespace OwnComponent

/-- The component of the given number; there is none past the last. -/
def ofNumber? (n : UInt32) : Option OwnComponent :=
  if n = 0 then some log else if n = 1 then some error else if n = 2 then some collection else none

def number : OwnComponent → UInt32
  | log => 0
  | error => 1
  | collection => 2

def name : OwnComponent → String
  | log => "LOG"
  | error => "ERROR"
  | collection => "COLLECTION"

theorem ofNumber?_number (c : OwnComponent) : ofNumber? c.number = some c := by
  cases c <;> rfl

end OwnComponent

/-- The component of a message. -/
inductive Component where
  | empty
  /-- A number of the library's own enumeration, named or not. -/
  | own (number : UInt32)
  /-- A number of another enumeration. -/
  | foreign (number : UInt32)
deriving DecidableEq

namespace Component

def collection : Component := own OwnComponent.collection.number

def logging : Component := own OwnComponent.log.number

/-- The name of a number of the library's own enumeration. -/
def ownName (n : UInt32) : String :=
  match OwnComponent.ofNumber? n with
  | some c => c.name
  | none => "?"

def own? : Component → Option OwnComponent
  | own n => OwnComponent.ofNumber? n
  | _ => none

/-- How a component is written in a log line. Only the library's own are. -/
def text? : Component → Option String
  | own n => some ("KEYSEQ-" ++ ownName n)
  | _ => none

end Component

end KeyedColumns.Log
