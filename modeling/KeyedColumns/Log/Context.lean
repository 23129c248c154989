import KeyedColumns.Log.Component

/-!
# Log contexts

Whoever logs carries a context: the logger to use, if any, and the component to log under. Contexts
are copied, moved and exchanged as values; moving leaves a blank context behind.
-/

namespace KeyedColumns.Log

/-- A logger, known by its number, and a component. -/
structure Context where
  logger : Option Nat
  component : Component
deriving DecidableEq

namespace Context

def blank : Context := ⟨none, .empty⟩

def setLogger (c : Context) (logger : Option Nat) : Context := { c with logger }

end Context

/-! ## A row of contexts -/

/-- What can be done with contexts that stand in a row and are known by their index. -/
inductive ContextStep where
  /-- A new context at the end of the row. -/
  | make (context : Context)
  /-- A copy of a context at the end of the row. -/
  | copy (source : Nat)
  /-- Moves a context to the end of the row. -/
  | move (source : Nat)
  | assign (target source : Nat)
  | moveAssign (target source : Nat)
  | swap (a b : Nat)
  | setLogger (target : Nat) (logger : Option Nat)

namespace ContextStep

def contextAt (row : List Context) (i : Nat) : Context := row[i]?.getD Context.blank

/-- The row after a step. A context moved to itself stays. -/
def apply (row : List Context) : ContextStep → List Context
  | make c => row ++ [c]
  | copy i => row ++ [contextAt row i]
  | move i => row.set i Context.blank ++ [contextAt row i]
  | assign i j => row.set i (contextAt row j)
  | moveAssign i j => if i = j then row else (row.set i (contextAt row j)).set j Context.blank
  | swap i j => (row.set i (contextAt row j)).set j (contextAt row i)
  | setLogger i l => row.set i ((contextAt row i).setLogger l)

/-- The rows after each of the steps. -/
def run (row : List Context) : List ContextStep → List (List Context)
  | [] => []
  | s :: rest => apply row s :: run (apply row s) rest

end ContextStep

end KeyedColumns.Log
