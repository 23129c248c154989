import KeyedColumns.Collection.Call
import KeyedColumns.Iteration
import KeyedColumns.Log.Config
import KeyedColumns.Log.Context
import KeyedColumns.Parts

/-!
# The registry

The registry knows the items, the collections by the name of their slot, and the parts that the
collections hold. Making, copying, assigning and exchanging collections only changes which parts a
slot holds; calls change the parts.
-/

namespace KeyedColumns

open Log (Config Context Component Severity)

/-- A collection: its kind, the parts it holds, and how it logs. -/
structure Collection where
  kind : Kind
  handle : Handle
  context : Context
deriving DecidableEq

/-- All items and collections, and what is logged about them. -/
structure Registry where
  catalogue : Catalogue
  parts : Parts
  slots : Dict String Collection
  config : Config
  snapshots : Nat

structure LogRecord where
  logger : Nat
  component : Component
  notice : Notice
deriving DecidableEq

/-- How a failing call reports: into the caller's code, which says something already, or by raising. -/
inductive Mode where
  | code (before : ErrorCode)
  | raising
deriving DecidableEq

def Mode.given : Mode → Option ErrorCode
  | code before => some before
  | raising => none

/-- What a caller of a fallible call gets. -/
inductive Reply where
  /-- A result, and what the caller's code says now. -/
  | coded (result : Result) (code : ErrorCode)
  | returned (result : Result)
  | raised (failure : Failure)

/-- What a caller gets if nothing is raised; the code is what its own says, if it brought one. -/
def Reply.of (result : Result) : Option ErrorCode → Reply
  | some code => coded result code
  | none => returned result

namespace Registry

def empty (config : Config) : Registry :=
  { catalogue := Catalogue.empty
    parts := Parts.empty
    slots := Dict.empty
    config
    snapshots := 0 }

def collection? (r : Registry) (slot : String) : Option Collection := r.slots.find? slot

/-- What a collection contains at present. -/
def contents (r : Registry) (c : Collection) : Contents := r.parts.contents c.handle

def print (r : Registry) (c : Collection) : String := c.kind.print (r.contents c)

/-- What is logged of some notices: nothing without a logger, and else what passes the filter. -/
def log (r : Registry) (context : Context) (notices : List Notice) : List LogRecord :=
  match context.logger with
  | none => []
  | some logger =>
    (notices.filter fun n => r.config.passes n.severity context.component).map fun notice =>
      { logger, component := context.component, notice }

def hold (r : Registry) (slot : String) (c : Collection) : Registry :=
  { r with slots := r.slots.put slot c }

/-- Puts a collection with parts of its own into a slot. -/
def establish (r : Registry) (slot : String) (kind : Kind) (context : Context) (c : Contents) :
    Registry :=
  { r with
    parts := r.parts.push c
    slots := r.slots.put slot { kind, handle := r.parts.next, context } }

/-- Changes the contents of a collection, for all that share its parts. -/
def write (r : Registry) (c : Collection) (contents : Contents) : Registry :=
  { r with parts := r.parts.write c.handle contents }

/-! ## Making collections -/

/-- A new collection. If an entry is refused it stays empty, and if that is raised there is none. -/
def create (r : Registry) (slot : String) (kind : Kind) (given : List (String × Option ItemId))
    (logger : Option Nat) (mode : Mode) : Registry × Reply × List LogRecord :=
  let context : Context := ⟨logger, .collection⟩
  let routine := kind.routine r.catalogue.column (.slot slot) given
  match routine.on (.start Contents.empty mode.given) with
  | (.ok _, w) =>
    (r.establish slot kind context w.contents, .of (.flag true) w.code, r.log context w.notices)
  -- With no collection to show for it, the notices can name no slot.
  | (.error f, w) => (r, .raised f, r.log context (w.notices.map (Notice.readdress .unnamed)))

/-- A view of the collection in a slot, which holds the very same parts. -/
def view (r : Registry) (slot source : String) (c : Collection) (logger : Option Nat) :
    Registry × List LogRecord :=
  let context : Context := ⟨logger, .collection⟩
  (r.hold slot { kind := .view, handle := c.handle, context },
    r.log context [.viewed (.slot slot) c.kind (.slot source) (r.contents c).size])

/-- What a copy of a view is: another view of the same parts. -/
def sibling (c : Collection) : Collection :=
  { kind := .view, handle := c.handle, context := ⟨c.context.logger, .collection⟩ }

/-- A copy in a slot. A copy of a view is a view; any other copy gets parts of its own. -/
def copy (r : Registry) (slot source : String) (c : Collection) : Registry × List LogRecord :=
  if c.kind = .view then (r.hold slot (sibling c), [])
  else
    (r.establish slot c.kind c.context (r.contents c),
      r.log c.context [.copied c.kind (r.print c) (.slot source) (.slot slot)])

/-- Assigns a copy to a slot. The copy is in no slot when it is reported. -/
def assign (r : Registry) (target source : String) (c : Collection) : Registry × List LogRecord :=
  if target = source then (r, [])
  else if c.kind = .view then (r.hold target (sibling c), [])
  else
    (r.establish target c.kind c.context (r.contents c),
      r.log c.context [.copied c.kind (r.print c) (.slot source) .unnamed])

def swap (r : Registry) (a b : String) (c d : Collection) : Registry :=
  (r.hold a d).hold b c

def drop (r : Registry) (slot : String) : Registry := { r with slots := r.slots.erase slot }

def setLogger (r : Registry) (slot : String) (c : Collection) (logger : Option Nat) : Registry :=
  r.hold slot { c with context := c.context.setLogger logger }

/-! ## Calls -/

/-- What a call on the collection in a slot comes to, and the work that it leaves. -/
def run (r : Registry) (slot : String) (c : Collection) (call : Call) (mode : Mode) :
    Except Failure Result × Work :=
  (call.routine r.catalogue.column (.slot slot) c.kind).on (.start (r.contents c) mode.given)

/-- A call on the collection in a slot. Whatever it has written stays, whether or not it failed. -/
def call (r : Registry) (slot : String) (c : Collection) (call : Call) (mode : Mode) :
    Registry × Reply × List LogRecord :=
  let (outcome, w) := r.run slot c call mode
  let reply := match outcome with
    | .ok result => .of result w.code
    | .error f => .raised f
  (r.write c w.contents, reply, r.log c.context w.notices)

/-! ## Reading -/

/-- Whether two collections hold the very same parts. -/
def shares (c d : Collection) : Bool := c.handle = d.handle

/-- Whether two collections have equal keys and the same items at all positions. -/
def agree (r : Registry) (c d : Collection) : Bool := (r.contents c).agree (r.contents d)

/-- An iterator at the start of a new snapshot; of an empty collection there is none to take. -/
def begin (r : Registry) (c : Collection) : Iterator × Registry :=
  if (r.contents c).entries.isEmpty then (.past, r)
  else
    (.first { serial := r.snapshots, items := (r.contents c).items },
      { r with snapshots := r.snapshots + 1 })

/-- The items that are present, in the order of the catalogue. -/
def activeItems (r : Registry) (c : Contents) : List ItemId :=
  r.catalogue.items.filter c.active.holds

/-! ## Laws -/

/-- Putting what a collection contains already changes nothing, not even for others. -/
theorem write_contents (r : Registry) (c : Collection) : r.write c (r.contents c) = r := by
  unfold write contents
  rw [Parts.write_contents]

theorem write_write (r : Registry) (c : Collection) (x y : Contents) :
    (r.write c x).write c y = r.write c y := by
  simp [write, Parts.write_write]

end Registry

end KeyedColumns
