import KeyedColumns.Proofs.Equivariance
import KeyedColumns.Proofs.Restoring
import KeyedColumns.Registry.Run

/-!
# Other loggers and other verbosities

A relogging says how else to log: with which loggers in the place of the ones that are given, and with
one verbosity for everything. What is asked of a registry that logs this way comes out as it does of
the registry itself, as long as the one logs what the verbosity leaves of what the other logs.
-/

namespace KeyedColumns

open Log (Config Context OwnComponent Severity)

/-- How else to log. What has no logger gets none. -/
structure Relogging where
  logger : Option Nat → Option Nat
  logger_none : logger none = none
  verbosity : Severity
  calendarStamps : Bool

namespace Relogging

def config (m : Relogging) : Config := .ofDefault m.verbosity m.calendarStamps

def context (m : Relogging) (c : Context) : Context := c.setLogger (m.logger c.logger)

/-- Whether the verbosity leaves a record. -/
def keeps (m : Relogging) (x : LogRecord) : Bool := x.notice.severity.kept ≤ m.verbosity.kept

theorem context_none (m : Relogging) (component : Log.Component) :
    m.context ⟨none, component⟩ = ⟨none, component⟩ := by
  unfold context Context.setLogger
  rw [m.logger_none]

end Relogging

def Collection.relog (m : Relogging) (c : Collection) : Collection :=
  { c with context := m.context c.context }

def Registry.relog (m : Relogging) (r : Registry) : Registry :=
  { r with slots := r.slots.mapValues (·.relog m), config := m.config }

/-- The action with other loggers. Whatever verbosity it sets, the one verbosity stays. -/
def Action.relog (m : Relogging) : Action → Action
  | create slot kind entries logger mode => create slot kind entries (m.logger logger) mode
  | view slot source logger => view slot source (m.logger logger)
  | setLogger slot logger => setLogger slot (m.logger logger)
  | setDefaultVerbosity _ reset => setDefaultVerbosity m.verbosity reset
  | setVerbosity severity component =>
    match OwnComponent.ofNumber? component with
    | some _ => setDefaultVerbosity m.verbosity false
    | none => setVerbosity severity component
  | action => action

namespace Request

mutual

/-- The request with other loggers, and with the one verbosity. -/
def relog (m : Relogging) : Request → Request
  | act action => act (action.relog m)
  | iterate slot body => iterate slot (relogBody m body)
  | showing request slot => showing (relog m request) slot

/-- The requests with other loggers, and with the one verbosity. -/
def relogAll (m : Relogging) : List Request → List Request
  | [] => []
  | q :: rest => relog m q :: relogAll m rest

/-- The body of an iteration with other loggers, and with the one verbosity. -/
def relogBody (m : Relogging) : List (Nat × List Request) → List (Nat × List Request)
  | [] => []
  | p :: rest => relogPart m p :: relogBody m rest

/-- One part of a body with other loggers, and with the one verbosity. -/
def relogPart (m : Relogging) : Nat × List Request → Nat × List Request
  | (n, qs) => (n, relogAll m qs)

end

theorem relogAll_eq_map (m : Relogging) (qs : List Request) : relogAll m qs = qs.map (relog m) := by
  induction qs with
  | nil => rw [relogAll, List.map_nil]
  | cons q rest ih => rw [relogAll, ih, List.map_cons]

end Request

def Value.relog (m : Relogging) : Value → Value
  | context value => context (m.context value)
  | value => value

def Outcome.relog (m : Relogging) : Outcome → Outcome
  | value v => value (v.relog m)
  | outcome => outcome

namespace Answer

mutual

/-- The answer with other loggers, and with those of the records that the verbosity leaves. -/
def relog (m : Relogging) : Answer → Answer
  | ⟨outcome, log, inner, state⟩ =>
    ⟨outcome.relog m, (log.filter m.keeps), relogAll m inner, state⟩

/-- The answers with other loggers, and with those of the records that the verbosity leaves. -/
def relogAll (m : Relogging) : List Answer → List Answer
  | [] => []
  | a :: rest => relog m a :: relogAll m rest

end

end Answer

/-- Logging otherwise, the registry logs what the verbosity leaves of what it logs. -/
def Relogging.Fits (m : Relogging) (r : Registry) : Prop :=
  ∀ context notices,
    (r.relog m).log (m.context context) notices = (r.log context notices).filter m.keeps

/-! ## Slots -/

theorem Dict.mapValues_erase {κ α β : Type} [DecidableEq κ] (d : Dict κ α) (f : α → β) (k : κ) :
    (d.erase k).mapValues f = (d.mapValues f).erase k := by
  simp [erase, mapValues, List.filter_map, Function.comp_def]

variable {m : Relogging}

namespace Collection

@[simp] theorem kind_relog (c : Collection) : (c.relog m).kind = c.kind := rfl

@[simp] theorem logger_relog (c : Collection) :
    (c.relog m).context.logger = m.logger c.context.logger := rfl

end Collection

namespace Registry

variable (r : Registry) (slot : String) (c d : Collection)

@[simp] theorem catalogue_relog : (r.relog m).catalogue = r.catalogue := rfl

@[simp] theorem config_relog : (r.relog m).config = m.config := rfl

@[simp] theorem knows_relog (items : List ItemId) : (r.relog m).knows items = r.knows items := rfl

@[simp] theorem collection?_relog : (r.relog m).collection? slot =
    (r.collection? slot).map (Collection.relog m) :=
  Dict.find?_mapValues _ _ _

theorem hold_relog : (r.relog m).hold slot (c.relog m) = (r.hold slot c).relog m := by
  simp only [hold, relog, Dict.mapValues_put]

theorem establish_relog (kind : Kind) (context : Context) (k : Contents) :
    (r.relog m).establish slot kind (m.context context) k =
      (r.establish slot kind context k).relog m := by
  simp only [establish, relog, Dict.mapValues_put, Collection.relog]

theorem drop_relog : (r.relog m).drop slot = (r.drop slot).relog m := by
  simp only [drop, relog, Dict.mapValues_erase]

theorem swap_relog (a b : String) :
    (r.relog m).swap a b (c.relog m) (d.relog m) = (r.swap a b c d).relog m := by
  simp only [swap, hold_relog]

theorem begin_relog : (r.relog m).begin (c.relog m) = ((r.begin c).1, (r.begin c).2.relog m) := by
  have hcontents : (r.relog m).contents (c.relog m) = r.contents c := rfl
  unfold begin
  rw [hcontents]
  split <;> rfl

end Registry

/-! ## Restoring -/

namespace Restoration

def relog (m : Relogging) (s : Restoration) : Restoration :=
  { s with registry := s.registry.relog m }

variable (a : Archive) (s : Restoration)

theorem restoreItem_relog (i : ItemId) :
    restoreItem a (s.relog m) i = (restoreItem a s i).relog m := by
  unfold restoreItem
  rw [apply_ite (relog m)]
  rfl

theorem restoreSequence_relog (q : Ref EntrySequence) :
    restoreSequence a (s.relog m) q = (restoreSequence a s q).relog m := by
  unfold restoreSequence
  rw [apply_ite (relog m)]
  rfl

theorem restoreIndex_relog (q : Ref KeyIndex) :
    restoreIndex a (s.relog m) q = (restoreIndex a s q).relog m := by
  unfold restoreIndex
  rw [apply_ite (relog m)]
  rfl

theorem restoreActive_relog (q : Ref ActiveSet) :
    restoreActive a (s.relog m) q = (restoreActive a s q).relog m := by
  unfold restoreActive
  rw [apply_ite (relog m)]
  rfl

theorem restoreItems_relog (is : List ItemId) :
    restoreItems a (s.relog m) is = (restoreItems a s is).relog m := by
  unfold restoreItems
  induction is generalizing s with
  | nil => rfl
  | cons i rest ih => rw [List.foldl_cons, restoreItem_relog, ih, List.foldl_cons]

theorem restoreParts_relog (h : Handle) :
    restoreParts a (s.relog m) h = (restoreParts a s h).relog m := by
  have hitems := restoreItems_relog (m := m) a s (a.itemsOf (a.contents h))
  unfold restoreItems at hitems
  simp only [restoreParts, hitems, restoreSequence_relog, restoreIndex_relog, restoreActive_relog]

/-- A collection that is made by loading has no logger, so there is nothing to relog. -/
theorem loadedAs_relog (before : Option Collection) (kind : Kind) (handle : Handle) :
    loadedAs (before.map (Collection.relog m)) kind handle =
      (loadedAs before kind handle).relog m := by
  cases before with
  | some c => rfl
  | none =>
    unfold loadedAs Collection.relog
    rw [m.context_none]
    rfl

theorem restoreInto_relog (kind : Kind) (h : Handle) (slot : String) :
    restoreInto a (s.relog m) kind h slot = (restoreInto a s kind h slot).relog m := by
  unfold restoreInto
  simp only [restoreParts_relog]
  generalize restoreParts a s h = t
  have hslot : (t.relog m).registry.collection? slot =
      (t.registry.collection? slot).map (Collection.relog m) := t.registry.collection?_relog slot
  rw [hslot, loadedAs_relog]
  exact congrArg (fun r => { t with registry := r }) (t.registry.hold_relog slot _)

theorem restoreAll_relog (pairs : List ((Kind × Handle) × String)) :
    restoreAll a (s.relog m) pairs = (restoreAll a s pairs).relog m := by
  induction pairs generalizing s with
  | nil => rfl
  | cons p rest ih =>
    obtain ⟨⟨kind, h⟩, slot⟩ := p
    rw [restoreAll, restoreInto_relog, ih, restoreAll]

end Restoration

namespace Registry

theorem save_relog (r : Registry) (slots : List String) : (r.relog m).save slots = r.save slots := by
  have hcollections : slots.filterMap (r.relog m).collection? =
      (slots.filterMap r.collection?).map (Collection.relog m) := by
    rw [List.map_filterMap]
    exact congrArg (slots.filterMap ·) (funext r.collection?_relog)
  unfold save
  rw [hcollections, List.map_map]
  rfl

theorem canRestore_relog (r : Registry) (a : Archive) (slots : List String) :
    (r.relog m).canRestore a slots = r.canRestore a slots := by
  have hkinds : (r.relog m).slots.mapValues (·.kind) = r.slots.mapValues (·.kind) := by
    simp only [relog, Dict.mapValues, List.map_map]
    rfl
  unfold canRestore
  rw [hkinds]

theorem restore_relog (r : Registry) (a : Archive) (slots : List String) :
    (r.relog m).restore a slots = (r.restore a slots).relog m :=
  congrArg Restoration.registry (Restoration.restoreAll_relog a (.start r) _)

/-! ## Actions -/

section

variable {r : Registry} (h : m.Fits r) (slot : String) (c : Collection)

include h

theorem create_relog (kind : Kind) (given : List (String × Option ItemId)) (logger : Option Nat)
    (mode : Mode) :
    (r.relog m).create slot kind given (m.logger logger) mode =
      ((r.create slot kind given logger mode).1.relog m, (r.create slot kind given logger mode).2.1,
        (r.create slot kind given logger mode).2.2.filter m.keeps) := by
  have hcat : (r.relog m).catalogue = r.catalogue := rfl
  have hlog : ∀ notices, (r.relog m).log ⟨m.logger logger, .collection⟩ notices =
      (r.log ⟨logger, .collection⟩ notices).filter m.keeps := h ⟨logger, .collection⟩
  have hslot : ∀ k, (r.relog m).establish slot kind ⟨m.logger logger, .collection⟩ k =
      (r.establish slot kind ⟨logger, .collection⟩ k).relog m :=
    r.establish_relog slot kind ⟨logger, .collection⟩
  unfold create
  simp only [hcat, hlog, hslot]
  split <;> rfl

theorem view_relog (source : String) (logger : Option Nat) :
    (r.relog m).view slot source (c.relog m) (m.logger logger) =
      ((r.view slot source c logger).1.relog m,
        (r.view slot source c logger).2.filter m.keeps) := by
  have hslot := r.hold_relog (m := m) slot ⟨.view, c.handle, ⟨logger, .collection⟩⟩
  exact Prod.ext hslot (h ⟨logger, .collection⟩ _)

theorem copy_relog (source : String) :
    (r.relog m).copy slot source (c.relog m) =
      ((r.copy slot source c).1.relog m, (r.copy slot source c).2.filter m.keeps) := by
  have hkind : (c.relog m).kind = c.kind := rfl
  unfold copy
  rw [hkind]
  split
  · exact Prod.ext (r.hold_relog slot (sibling c)) rfl
  · exact Prod.ext (r.establish_relog slot c.kind c.context _) (h c.context _)

theorem assign_relog (source : String) :
    (r.relog m).assign slot source (c.relog m) =
      ((r.assign slot source c).1.relog m, (r.assign slot source c).2.filter m.keeps) := by
  have hkind : (c.relog m).kind = c.kind := rfl
  unfold assign
  rw [hkind]
  split
  · rfl
  · split
    · exact Prod.ext (r.hold_relog slot (sibling c)) rfl
    · exact Prod.ext (r.establish_relog slot c.kind c.context _) (h c.context _)

theorem call_relog (call : Call) (mode : Mode) :
    (r.relog m).call slot (c.relog m) call mode =
      ((r.call slot c call mode).1.relog m, (r.call slot c call mode).2.1,
        (r.call slot c call mode).2.2.filter m.keeps) := by
  have hrun : (r.relog m).run slot (c.relog m) call mode = r.run slot c call mode := rfl
  unfold Registry.call
  rw [hrun]
  exact congrArg (Prod.mk _) (congrArg (Prod.mk _) (h c.context _))

end

theorem setLogger_relog (r : Registry) (slot : String) (c : Collection) (logger : Option Nat) :
    (r.relog m).setLogger slot (c.relog m) (m.logger logger) =
      (r.setLogger slot c logger).relog m :=
  r.hold_relog slot { c with context := c.context.setLogger logger }

theorem ask_relog (r : Registry) (c : Collection) (query : Query) :
    (r.relog m).ask (c.relog m) query = (r.ask c query).relog m := by
  cases query <;> rfl

theorem iteratorAt_relog (r : Registry) (c : Collection) (steps : Option Nat) :
    (r.relog m).iteratorAt (c.relog m) steps =
      ((r.iteratorAt c steps).1, (r.iteratorAt c steps).2.relog m) := by
  unfold iteratorAt
  cases steps with
  | none => rfl
  | some n => simp only [begin_relog]

theorem compareIterators_relog (r : Registry) (c d : Collection) (i j : Option Nat) (same : Bool) :
    (r.relog m).compareIterators (c.relog m) (d.relog m) i j same =
      ((r.compareIterators c d i j same).1.relog m, (r.compareIterators c d i j same).2) := by
  unfold compareIterators
  split
  · simp only [begin_relog]
  · simp only [iteratorAt_relog]

end Registry

theorem Relogging.setDefault_config (m : Relogging) (reset : Bool) :
    m.config.setDefault m.verbosity reset = m.config := by
  cases reset <;> rfl

namespace Answer

theorem relogAll_eq_map (m : Relogging) (answers : List Answer) :
    relogAll m answers = answers.map (relog m) := by
  induction answers with
  | nil => rw [relogAll, List.map_nil]
  | cons a rest ih => rw [relogAll, ih, List.map_cons]

@[simp] theorem relog_of (m : Relogging) (outcome : Outcome) (log : List LogRecord) :
    (of outcome log).relog m = of (outcome.relog m) (log.filter m.keeps) := by
  simp only [of, relog, relogAll]

@[simp] theorem relog_done (m : Relogging) : done.relog m = done := relog_of m .done []

@[simp] theorem relog_malformed (m : Relogging) : malformed.relog m = malformed :=
  relog_of m .malformed []

theorem relog_showing (m : Relogging) (a : Answer) (state : Option State) :
    { a with state }.relog m = { a.relog m with state } := by
  cases a
  simp only [relog]

@[simp] theorem relog_value (m : Relogging) (v : Value) : (value v).relog m = value (v.relog m) :=
  relog_of m (.value v) []

end Answer

namespace Registry

/-- A registry that logs otherwise answers as the registry does, but for what it logs. -/
theorem act_relog {r : Registry} (h : m.Fits r) (action : Action) :
    (r.relog m).act (action.relog m) = ((r.act action).1.relog m, (r.act action).2.relog m) := by
  cases action with
  | create slot kind given logger mode =>
    simp only [Action.relog, act, knows_relog, create_relog h]
    split <;> simp [Outcome.relog]
  | freeze slot source =>
    simp only [Action.relog, act, collection?_relog]
    cases r.collection? source <;> simp [view_relog h, Outcome.relog]
  | view slot source logger =>
    simp only [Action.relog, act, collection?_relog]
    cases r.collection? source <;> simp [view_relog h, Outcome.relog]
  | copy slot source =>
    simp only [Action.relog, act, collection?_relog]
    cases r.collection? source <;> simp [copy_relog h, Outcome.relog]
  | assign target source =>
    simp only [Action.relog, act, collection?_relog]
    cases r.collection? target with
    | none => simp
    | some t =>
      cases r.collection? source with
      | none => simp
      | some c => by_cases hk : t.kind = c.kind <;> simp [hk, assign_relog h, Outcome.relog]
  | swap a b =>
    simp only [Action.relog, act, collection?_relog]
    cases r.collection? a with
    | none => simp
    | some c =>
      cases r.collection? b with
      | none => simp
      | some d => by_cases hk : c.kind = d.kind <;> simp [hk, swap_relog]
  | drop slot =>
    simp only [Action.relog, act, collection?_relog]
    cases r.collection? slot <;> simp [drop_relog]
  | call slot call mode =>
    simp only [Action.relog, act, collection?_relog, knows_relog]
    cases r.collection? slot with
    | none => simp
    | some c =>
      by_cases hi : (call.isFor c.kind && r.knows call.items) = true <;>
        simp [hi, call_relog h, Outcome.relog]
  | ask slot query =>
    simp only [Action.relog, act, collection?_relog, knows_relog]
    cases r.collection? slot with
    | none => simp
    | some c => by_cases hi : r.knows query.namedItems = true <;> simp [hi, ask_relog]
  | compare a b =>
    simp only [Action.relog, act, collection?_relog]
    cases r.collection? a with
    | none => simp
    | some c =>
      cases r.collection? b with
      | none => simp
      | some d =>
        simp only [Option.map_some, Answer.relog_value]
        rfl
  | compareIterators first second same =>
    simp only [Action.relog, act, collection?_relog]
    cases r.collection? first.slot <;> cases r.collection? second.slot <;>
      simp [compareIterators_relog, Value.relog]
  | setLogger slot logger =>
    simp only [Action.relog, act, collection?_relog]
    cases r.collection? slot <;> simp [setLogger_relog]
  | setDefaultVerbosity severity reset =>
    simp only [Action.relog, act, config_relog, m.setDefault_config, Answer.relog_done]
    rfl
  | setVerbosity severity component =>
    simp only [Action.relog]
    cases hn : OwnComponent.ofNumber? component with
    | none =>
      have hfail : ∀ c : Config, c.setComponent? severity component = none :=
        fun c => (c.setComponent?_eq_none_iff severity component).mpr hn
      simp [act, hfail, Outcome.relog]
    | some o =>
      simp only [act, Config.setComponent?, hn, config_relog, m.setDefault_config,
        Answer.relog_done]
      rfl
  | makeItem label column =>
    simp only [Action.relog, act, Answer.relog_done]
    rfl
  | setKey item key =>
    simp only [Action.relog, act, catalogue_relog]
    by_cases hi : r.catalogue.knows item = true
    · simp only [hi, if_true, Answer.relog_done]
      rfl
    · simp [hi]
  | describe item =>
    simp only [Action.relog, act, catalogue_relog]
    by_cases hi : r.catalogue.knows item = true <;> simp [hi, Value.relog]
  | roundTrip saved restored =>
    simp only [Action.relog, act, save_relog, canRestore_relog, restore_relog]
    split <;> simp

end Registry

/-! ## Requests -/

/-- Whether all actions are allowed that a request makes. -/
inductive Request.Every (allowed : Action → Prop) : Request → Prop where
  | act {action : Action} (h : allowed action) : Every allowed (.act action)
  | iterate {slot : String} {body : List (Nat × List Request)}
    (h : ∀ p ∈ body, ∀ q ∈ p.2, Every allowed q) : Every allowed (.iterate slot body)
  | showing {request : Request} {slot : String} (h : Every allowed request) :
    Every allowed (.showing request slot)

theorem Request.every_of_forall {allowed : Action → Prop} (h : ∀ a, allowed a) :
    (q : Request) → q.Every allowed
  | .act a => .act (h a)
  | .iterate slot body => .iterate fun p _ q _ => every_of_forall h q
  | .showing q slot => .showing (every_of_forall h q)
  decreasing_by
    · have hpart := List.sizeOf_lt_of_mem ‹p ∈ body›
      have hrequest := List.sizeOf_lt_of_mem ‹q ∈ p.2›
      obtain ⟨n, qs⟩ := p
      simp only [Prod.mk.sizeOf_spec, Request.iterate.sizeOf_spec] at *
      omega
    · simp only [Request.showing.sizeOf_spec]
      omega

/-- Some registries fit, and from them what is allowed leads to such registries only. -/
structure Relogging.Serves (m : Relogging) (among : Registry → Prop) (allowed : Action → Prop) :
    Prop where
  fits : ∀ r, among r → m.Fits r
  act : ∀ r action, among r → allowed action → among (r.act action).1
  begin : ∀ r c, among r → among (r.begin c).2

namespace Registry

variable {among : Registry → Prop} {allowed : Action → Prop}

/-- The answers that the second gives are the first ones logged otherwise, and so is the registry. -/
abbrev Relogged (m : Relogging) (among : Registry → Prop) (x y : Registry × List Answer) : Prop :=
  y = (x.1.relog m, x.2.map (Answer.relog m)) ∧ among x.1

theorem walk_relog {body body' : Nat → Registry → Registry × List Answer}
    (hbody : ∀ n s, among s → Relogged m among (body n s) (body' n (s.relog m)))
    (fuel : Nat) (it : Iterator) {r : Registry} (hr : among r) :
    walk body' fuel it (r.relog m) =
        { registry := (walk body fuel it r).registry.relog m
          visited := (walk body fuel it r).visited
          answers := (walk body fuel it r).answers.map (Answer.relog m) } ∧
      among (walk body fuel it r).registry := by
  induction fuel generalizing it r with
  | zero => exact ⟨rfl, hr⟩
  | succ n ih =>
    unfold walk
    split
    · exact ⟨rfl, hr⟩
    · obtain ⟨hfirst, hamong⟩ := hbody it.index r hr
      obtain ⟨hrest, hlast⟩ := ih it.next hamong
      rw [hfirst]
      refine ⟨?_, hlast⟩
      simp only [hrest, List.map_append]

theorem iterate_relog (hm : m.Serves among allowed)
    {body body' : Nat → Registry → Registry × List Answer}
    (hbody : ∀ n s, among s → Relogged m among (body n s) (body' n (s.relog m)))
    {r : Registry} (hr : among r) (c : Collection) :
    (r.relog m).iterate (c.relog m) body' =
        ((r.iterate c body).1.relog m, (r.iterate c body).2.relog m) ∧
      among (r.iterate c body).1 := by
  have hwalk := walk_relog hbody (r.begin c).1.remaining (r.begin c).1 (hm.begin r c hr)
  unfold iterate
  simp only [begin_relog, hwalk.1, Answer.relog, Outcome.relog, Answer.relogAll_eq_map]
  exact ⟨rfl, hwalk.2⟩

-- By induction on the request: an action is a case of its own, an iteration goes by its body.
mutual

theorem answer_relog (hm : m.Serves among allowed) : (q : Request) → (r : Registry) → among r →
    q.Every allowed →
    answer (q.relog m) (r.relog m) = ((answer q r).1.relog m, (answer q r).2.relog m) ∧
      among (answer q r).1
  | .act action, r, hr, hq => by
    cases hq with
    | act ha =>
      simp only [Request.relog, answer]
      exact ⟨act_relog (hm.fits r hr) action, hm.act r action hr ha⟩
  | .iterate slot body, r, hr, hq => by
    cases hq with
    | iterate hb =>
      simp only [Request.relog, answer, collection?_relog]
      cases r.collection? slot with
      | none => exact ⟨by simp, hr⟩
      | some c => exact iterate_relog hm (fun n s hs => bodyAt_relog hm body n s hs hb) hr c
  | .showing q slot, r, hr, hq => by
    cases hq with
    | showing hq =>
      obtain ⟨hanswer, hamong⟩ := answer_relog hm q r hr hq
      have hstate : (relog m (answer q r).1).state ∘ Collection.relog m = (answer q r).1.state := rfl
      simp only [Request.relog, answer, hanswer, collection?_relog, Option.map_map, hstate,
        Answer.relog_showing]
      exact ⟨trivial, hamong⟩

theorem answerAll_relog (hm : m.Serves among allowed) : (qs : List Request) → (r : Registry) →
    among r → (∀ q ∈ qs, q.Every allowed) →
    Relogged m among (answerAll qs r) (answerAll (Request.relogAll m qs) (r.relog m))
  | [], r, hr, _ => by
    simp only [Request.relogAll, answerAll]
    exact ⟨rfl, hr⟩
  | q :: rest, r, hr, hqs => by
    obtain ⟨hfirst, hmid⟩ := answer_relog hm q r hr (hqs q List.mem_cons_self)
    obtain ⟨hrest, hlast⟩ := answerAll_relog hm rest _ hmid
      fun p hp => hqs p (List.mem_cons_of_mem q hp)
    simp only [Request.relogAll, answerAll, hfirst, hrest]
    exact ⟨rfl, hlast⟩

theorem bodyAt_relog (hm : m.Serves among allowed) : (body : List (Nat × List Request)) →
    (n : Nat) → (r : Registry) → among r → (∀ p ∈ body, ∀ q ∈ p.2, q.Every allowed) →
    Relogged m among (bodyAt body n r) (bodyAt (Request.relogBody m body) n (r.relog m))
  | [], n, r, hr, _ => by
    simp only [Request.relogBody, bodyAt]
    exact ⟨rfl, hr⟩
  | p :: rest, n, r, hr, hb => by
    have hindex : (Request.relogPart m p).1 = p.1 := by rw [Request.relogPart]
    simp only [Request.relogBody, bodyAt, hindex]
    split
    · exact answerPart_relog hm p r hr (hb p List.mem_cons_self)
    · exact bodyAt_relog hm rest n r hr fun x hx => hb x (List.mem_cons_of_mem p hx)

theorem answerPart_relog (hm : m.Serves among allowed) : (p : Nat × List Request) →
    (r : Registry) → among r → (∀ q ∈ p.2, q.Every allowed) →
    Relogged m among (answerPart p r) (answerPart (Request.relogPart m p) (r.relog m))
  | (_, qs), r, hr, hqs => by
    simp only [Request.relogPart, answerPart]
    exact answerAll_relog hm qs r hr hqs

end

end Registry

end KeyedColumns
