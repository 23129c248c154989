import KeyedColumns.Registry.Archive

/-!
# Requests

What a registry can be asked to do, and the one function that answers. A request that names an
unknown slot or item, or a call that the kind of collection lacks, is malformed and changes nothing.
A request to iterate carries the requests that are made on the way.
-/

namespace KeyedColumns

open Log (Context Severity)

/-- A question about a collection that always has an answer. -/
inductive Query where
  | get (key : String) (fallback : Option ItemId)
  | contains (key : String)
  | containsColumn (item : Option ItemId)
  | size
  | isEmpty
  | keys
  | items
  | entries
  | print
  | context
deriving DecidableEq

/-- An iterator to obtain from a slot: some steps from the start, or the end. -/
structure IteratorAt where
  slot : String
  steps : Option Nat
deriving DecidableEq

/-- A request that makes no others. -/
inductive Action where
  | create (slot : String) (kind : Kind) (entries : List (String × Option ItemId))
    (logger : Option Nat) (mode : Mode)
  /-- A view that logs as its source does. -/
  | freeze (slot source : String)
  | view (slot source : String) (logger : Option Nat)
  | copy (slot source : String)
  | assign (target source : String)
  | swap (a b : String)
  | drop (slot : String)
  | call (slot : String) (call : Call) (mode : Mode)
  | ask (slot : String) (query : Query)
  | compare (a b : String)
  /-- Compares two iterators; with `same` both go over the first one's snapshot. -/
  | compareIterators (first second : IteratorAt) (same : Bool)
  | setLogger (slot : String) (logger : Option Nat)
  | setDefaultVerbosity (severity : Severity) (reset : Bool)
  | setVerbosity (severity : Severity) (component : UInt32)
  | makeItem (label : String) (column : Column)
  | setKey (item : ItemId) (key : String)
  | describe (item : ItemId)
  | roundTrip (saved restored : List String)
deriving DecidableEq

/-- Something that a registry is asked to do. -/
inductive Request where
  | act (action : Action)
  /-- Goes over the items; at each index the requests listed for it are made. -/
  | iterate (slot : String) (body : List (Nat × List Request))
  /-- Makes a request and shows the state of a slot after it. -/
  | showing (request : Request) (slot : String)

/-- A value that an answer gives. -/
inductive Value where
  | flag (value : Bool)
  /-- Whether two collections agree, and whether they hold the very same parts. -/
  | comparison (agree shares : Bool)
  | sameIterators (value : Bool)
  | number (value : Nat)
  | text (value : String)
  | item (value : Option ItemId)
  | items (values : List ItemId)
  | keys (values : List String)
  | entries (values : List Entry)
  | context (value : Context)
  | column (value : Column)

/-- What came of a request. -/
inductive Outcome where
  | done
  | value (value : Value)
  | reply (reply : Reply)
  | visited (items : List ItemId)
  | outOfRange
  | malformed

/-- The state of a collection, keys and items sorted. -/
structure State where
  kind : Kind
  entries : List Entry
  byPosition : List ItemId
  byKey : List (String × ItemId)
  firstPosition : List (String × Nat)
  active : List ItemId

structure Answer where
  outcome : Outcome
  log : List LogRecord
  /-- The answers to the requests made by an iteration. -/
  inner : List Answer
  state : Option State

def Query.namedItems : Query → List ItemId
  | get _ item | containsColumn item => item.toList
  | _ => []

namespace Answer

def of (outcome : Outcome) (log : List LogRecord) : Answer :=
  { outcome, log, inner := [], state := none }

def done : Answer := of .done []

def malformed : Answer := of .malformed []

def value (v : Value) : Answer := of (.value v) []

end Answer

namespace Registry

/-! ## States -/

/-- Values in the order of their texts. -/
def sortedBy {α : Type} (text : α → String) (values : List α) : List α :=
  values.mergeSort fun a b => decide (text a ≤ text b)

def state (r : Registry) (c : Collection) : State :=
  let k := r.contents c
  { kind := c.kind
    entries := k.entries
    byPosition := k.items
    byKey := sortedBy (·.1) k.index.byKey.pairs
    firstPosition := sortedBy (·.1) k.index.firstPosition.pairs
    active := sortedBy ItemId.label (r.activeItems k) }

def states (r : Registry) : List (String × State) := r.slots.pairs.map fun p => (p.1, r.state p.2)

/-! ## Actions -/

def ask (r : Registry) (c : Collection) : Query → Value
  | .get key fallback => .item (((r.contents c).find? key).or fallback)
  | .contains key => .flag ((r.contents c).find? key).isSome
  | .containsColumn item => .flag (item.any (r.contents c).active.holds)
  | .size => .number (r.contents c).size
  | .isEmpty => .flag (r.contents c).entries.isEmpty
  | .keys => .keys (r.contents c).keys
  | .items => .items (r.contents c).items
  | .entries => .entries (r.contents c).entries
  | .print => .text (r.print c)
  | .context => .context c.context

/-- Obtains an iterator from a collection. -/
def iteratorAt (r : Registry) (c : Collection) (steps : Option Nat) : Iterator × Registry :=
  match steps with
  | none => (.past, r)
  | some n =>
    let (it, r) := r.begin c
    (it.advance n, r)

/-- Obtains two iterators and compares them. -/
def compareIterators (r : Registry) (c d : Collection) (i j : Option Nat) (same : Bool) :
    Registry × Bool :=
  if same then
    let (start, r) := r.begin c
    let place := fun steps : Option Nat => (steps.map start.advance).getD .past
    (r, (place i).same (place j))
  else
    let (first, r) := r.iteratorAt c i
    let (second, r) := r.iteratorAt d j
    (r, first.same second)

def knows (r : Registry) (items : List ItemId) : Bool := items.all r.catalogue.knows

def act (r : Registry) (action : Action) : Registry × Answer :=
  match action with
  | .create slot kind entries logger mode =>
    if r.knows (entries.filterMap (·.2)) then
      let (r, reply, log) := r.create slot kind entries logger mode
      (r, .of (.reply reply) log)
    else (r, .malformed)
  | .freeze slot source =>
    match r.collection? source with
    | some c =>
      let (r, log) := r.view slot source c c.context.logger
      (r, .of .done log)
    | none => (r, .malformed)
  | .view slot source logger =>
    match r.collection? source with
    | some c =>
      let (r, log) := r.view slot source c logger
      (r, .of .done log)
    | none => (r, .malformed)
  | .copy slot source =>
    match r.collection? source with
    | some c =>
      let (r, log) := r.copy slot source c
      (r, .of .done log)
    | none => (r, .malformed)
  | .assign target source =>
    match r.collection? target, r.collection? source with
    | some t, some c =>
      if t.kind = c.kind then
        let (r, log) := r.assign target source c
        (r, .of .done log)
      else (r, .malformed)
    | _, _ => (r, .malformed)
  | .swap a b =>
    match r.collection? a, r.collection? b with
    | some c, some d => if c.kind = d.kind then (r.swap a b c d, .done) else (r, .malformed)
    | _, _ => (r, .malformed)
  | .drop slot =>
    match r.collection? slot with
    | some _ => (r.drop slot, .done)
    | none => (r, .malformed)
  | .call slot call mode =>
    match r.collection? slot with
    | some c =>
      if call.isFor c.kind && r.knows call.items then
        let (r, reply, log) := r.call slot c call mode
        (r, .of (.reply reply) log)
      else (r, .malformed)
    | none => (r, .malformed)
  | .ask slot query =>
    match r.collection? slot with
    | some c => if r.knows query.namedItems then (r, .value (r.ask c query)) else (r, .malformed)
    | none => (r, .malformed)
  | .compare a b =>
    match r.collection? a, r.collection? b with
    | some c, some d => (r, .value (.comparison (r.agree c d) (shares c d)))
    | _, _ => (r, .malformed)
  | .compareIterators first second same =>
    match r.collection? first.slot, r.collection? second.slot with
    | some c, some d =>
      let (r, equal) := r.compareIterators c d first.steps second.steps same
      (r, .value (.sameIterators equal))
    | _, _ => (r, .malformed)
  | .setLogger slot logger =>
    match r.collection? slot with
    | some c => (r.setLogger slot c logger, .done)
    | none => (r, .malformed)
  | .setDefaultVerbosity severity reset =>
    ({ r with config := r.config.setDefault severity reset }, .done)
  | .setVerbosity severity component =>
    match r.config.setComponent? severity component with
    | some config => ({ r with config }, .done)
    | none => (r, .of .outOfRange [])
  | .makeItem label column => ({ r with catalogue := r.catalogue.make label column }, .done)
  | .setKey item key =>
    if r.catalogue.knows item then
      ({ r with catalogue := r.catalogue.setKey item key }, .done)
    else (r, .malformed)
  | .describe item =>
    if r.catalogue.knows item then (r, .value (.column (r.catalogue.column item)))
    else (r, .malformed)
  | .roundTrip saved restored =>
    let archive := r.save saved
    if archive.collections.length = saved.length && r.canRestore archive restored then
      (r.restore archive restored, .done)
    else (r, .malformed)

/-! ## Iteration -/

/-- What happened on the way of an iteration. -/
structure Walk where
  registry : Registry
  visited : List ItemId
  answers : List Answer

/--
Goes from an iterator to the end. At each item it makes the requests of the body and takes one step,
as often as `fuel` allows; the items left over are enough.
-/
def walk (body : Nat → Registry → Registry × List Answer) : Nat → Iterator → Registry → Walk
  | 0, _, r => { registry := r, visited := [], answers := [] }
  | fuel + 1, it, r =>
    if it.same .past then { registry := r, visited := [], answers := [] }
    else
      let (r, answers) := body it.index r
      let rest := walk body fuel it.next r
      { rest with visited := it.item?.toList ++ rest.visited, answers := answers ++ rest.answers }

/-- Goes over the items of a collection as they are now. -/
def iterate (r : Registry) (c : Collection) (body : Nat → Registry → Registry × List Answer) :
    Registry × Answer :=
  let (it, r) := r.begin c
  let w := walk body it.remaining it r
  (w.registry, { outcome := .visited w.visited, log := [], inner := w.answers, state := none })

/-! ## Requests -/

mutual

def answer : Request → Registry → Registry × Answer
  | .act action, r => r.act action
  | .iterate slot body, r =>
    match r.collection? slot with
    | some c => r.iterate c (bodyAt body)
    | none => (r, .malformed)
  | .showing request slot, r =>
    let (r, a) := answer request r
    (r, { a with state := (r.collection? slot).map r.state })

/-- Answers requests one after the other. -/
def answerAll : List Request → Registry → Registry × List Answer
  | [], r => (r, [])
  | q :: rest, r =>
    let (r, a) := answer q r
    let (r, as) := answerAll rest r
    (r, a :: as)

/-- The requests that a body makes at an index. -/
def bodyAt : List (Nat × List Request) → Nat → Registry → Registry × List Answer
  | [], _, r => (r, [])
  | p :: rest, n, r => if p.1 = n then answerPart p r else bodyAt rest n r

/-- Answers the requests of one part of a body. -/
def answerPart : Nat × List Request → Registry → Registry × List Answer
  | (_, requests), r => answerAll requests r

end

end Registry

end KeyedColumns
