import KeyedColumns.Proofs.Lineage

/-!
# How collections log

Only the actions that set verbosities change what passes. Loggers come and go, but whatever is made,
copied, exchanged or restored logs under the component of collections.
-/

namespace KeyedColumns

open Log (Config)

/-- What passes in a registry, and that all collections log under the component of collections. -/
structure Registry.Logging (r : Registry) (config : Config) : Prop where
  config : r.config = config
  native : ∀ slot c, r.collection? slot = some c → c.context.component = .collection

/-- The configuration after an action. -/
def Action.configure (config : Config) : Action → Config
  | setDefaultVerbosity severity reset => config.setDefault severity reset
  | setVerbosity severity component => (config.setComponent? severity component).getD config
  | _ => config

namespace Registry.Logging

variable {r : Registry} {config : Config} {c : Collection}

theorem hold (h : r.Logging config) (slot : String) (hc : c.context.component = .collection) :
    (r.hold slot c).Logging config := by
  refine ⟨h.config, fun t d hd => ?_⟩
  rw [collection?_hold] at hd
  split at hd
  · exact Option.some.inj hd ▸ hc
  · exact h.native t d hd

theorem establish (h : r.Logging config) (slot : String) (kind : Kind) {context : Log.Context}
    (hc : context.component = .collection) (contents : Contents) :
    (r.establish slot kind context contents).Logging config := by
  refine ⟨h.config, fun t d hd => ?_⟩
  rcases held_establish hd with ⟨-, rfl⟩ | ⟨-, hd⟩
  · exact hc
  · exact h.native t d hd

theorem drop (h : r.Logging config) (slot : String) : (r.drop slot).Logging config := by
  refine ⟨h.config, fun t d hd => ?_⟩
  rw [collection?_drop] at hd
  split at hd
  · cases hd
  · exact h.native t d hd

theorem begin (h : r.Logging config) (c : Collection) : (r.begin c).2.Logging config := by
  unfold Registry.begin
  split <;> exact ⟨h.config, h.native⟩

theorem iteratorAt (h : r.Logging config) (c : Collection) (steps : Option Nat) :
    (r.iteratorAt c steps).2.Logging config := by
  cases steps with
  | none => exact h
  | some n => exact h.begin c

theorem compareIterators (h : r.Logging config) (c d : Collection) (i j : Option Nat)
    (same : Bool) : (r.compareIterators c d i j same).1.Logging config := by
  unfold Registry.compareIterators
  split
  · exact h.begin c
  · exact (h.iteratorAt c i).iteratorAt d j

end Registry.Logging

/-! ## Actions -/

namespace Registry.Logging

variable {r : Registry} {config : Config} {source : String} {c : Collection}

theorem restore (h : r.Logging config) (a : Archive) (slots : List String) :
    (r.restore a slots).Logging config := by
  have hwithstands : Restoration.Withstands (·.Logging config) := by
    refine ⟨⟨fun r _ h => ⟨h.config, h.native⟩, fun r _ h => ⟨h.config, h.native⟩⟩,
      fun r slot kind handle h => h.hold slot ?_⟩
    -- A collection that is there keeps the way it logs.
    unfold Restoration.loadedAs
    split
    · next c hc => exact h.native slot c hc
    · rfl
  exact hwithstands.restoreAll a h _

theorem create (h : r.Logging config) (slot : String) (kind : Kind)
    (given : List (String × Option ItemId)) (logger : Option Nat) (mode : Mode) :
    (r.create slot kind given logger mode).1.Logging config := by
  unfold Registry.create
  simp only
  split
  · exact h.establish slot kind rfl _
  · exact h

theorem copy (h : r.Logging config) (hc : r.collection? source = some c) (slot : String) :
    (r.copy slot source c).1.Logging config := by
  unfold Registry.copy
  split
  · exact h.hold slot rfl
  · exact h.establish slot c.kind (h.native source c hc) _

theorem assign (h : r.Logging config) (hc : r.collection? source = some c) (target : String) :
    (r.assign target source c).1.Logging config := by
  unfold Registry.assign
  split
  · exact h
  · split
    · exact h.hold target rfl
    · exact h.establish target c.kind (h.native source c hc) _

theorem call (h : r.Logging config) (slot : String) (c : Collection) (call : Call) (mode : Mode) :
    (r.call slot c call mode).1.Logging config :=
  ⟨h.config, h.native⟩

/-- Only what sets verbosities changes what passes, and all collections log as collections. -/
theorem act (h : r.Logging config) (action : Action) :
    (r.act action).1.Logging (action.configure config) := by
  cases action with
  | create slot kind given logger mode =>
    simp only [Registry.act]
    split
    · exact h.create slot kind given logger mode
    · exact h
  | freeze slot | view slot =>
    simp only [Registry.act]
    split
    · exact h.hold slot rfl
    · exact h
  | copy slot source =>
    simp only [Registry.act]
    split
    · next c hc => exact h.copy hc slot
    · exact h
  | assign target source =>
    simp only [Registry.act]
    split
    · next t c _ hc =>
      split
      · exact h.assign hc target
      · exact h
    · exact h
  | swap a b =>
    simp only [Registry.act]
    split
    · next c d hc hd =>
      split
      · exact (h.hold a (h.native b d hd)).hold b (h.native a c hc)
      · exact h
    · exact h
  | drop slot =>
    simp only [Registry.act]
    split
    · exact h.drop slot
    · exact h
  | call slot call mode =>
    simp only [Registry.act]
    split
    · next c _ =>
      split
      · exact h.call slot c call mode
      · exact h
    · exact h
  | compareIterators first second same =>
    simp only [Registry.act]
    split
    · exact h.compareIterators _ _ _ _ _
    · exact h
  | setLogger slot logger =>
    simp only [Registry.act]
    split
    · next c hc => exact h.hold slot (h.native slot c hc)
    · exact h
  | setDefaultVerbosity severity reset =>
    exact ⟨congrArg (·.setDefault severity reset) h.config, h.native⟩
  | setVerbosity severity component =>
    simp only [Registry.act, Action.configure, h.config]
    cases config.setComponent? severity component with
    | none => exact h
    | some config' => exact ⟨rfl, h.native⟩
  | roundTrip saved restored =>
    simp only [Registry.act]
    split
    · exact h.restore _ _
    · exact h
  | makeItem => exact ⟨h.config, h.native⟩
  | setKey =>
    simp only [Registry.act]
    split <;> exact ⟨h.config, h.native⟩
  | compare | describe =>
    simp only [Registry.act]
    split <;> exact h
  | ask slot query =>
    simp only [Registry.act]
    split
    · split <;> exact h
    · exact h

end Registry.Logging

theorem Reachable.logging {r : Registry} (h : Reachable r) : ∃ config, r.Logging config := by
  obtain ⟨config, hrun⟩ := h
  induction hrun with
  | refl => exact ⟨config, rfl, nofun⟩
  | act action _ _ ih =>
    obtain ⟨config', h⟩ := ih
    exact ⟨_, h.act action⟩
  | begin c _ ih =>
    obtain ⟨config', h⟩ := ih
    exact ⟨config', h.begin c⟩

end KeyedColumns
