import KeyedColumns.Log.Component
import KeyedColumns.Log.Severity

/-!
# What is logged

A configuration holds the least grave severity that is logged: one by default, and one for each of
the library's own components for which it has been set. Levels are kept in eight bits.
-/

namespace KeyedColumns.Log

/-- A level as a configuration keeps it: its low eight bits. -/
def Severity.kept (s : Severity) : UInt8 := s.level.toUInt8

/-- Which messages pass, and how the time is written. -/
structure Config where
  /-- The verbosity of a component for which none is set. -/
  verbosity : UInt8
  verbosityOf : OwnComponent → Option UInt8
  /-- Whether times are written as dates. Loggers ask once, when they are made. -/
  calendarStamps : Bool

namespace Config

/-- A configuration without a verbosity for any single component. -/
def ofDefault (s : Severity) (calendarStamps : Bool) : Config :=
  { verbosity := s.kept, verbosityOf := fun _ => none, calendarStamps }

/-- The verbosity of a configuration for which none is asked. -/
def usual : Severity := Severity.info

/-- Sets the default verbosity; with `reset` it holds for every component again. -/
def setDefault (c : Config) (s : Severity) (reset : Bool) : Config :=
  { c with
    verbosity := s.kept
    verbosityOf := if reset then fun _ => none else c.verbosityOf }

/-- The level 255 stands for "not set". -/
def asSet (level : UInt8) : Option UInt8 := if level = 255 then none else some level

/-- Sets the verbosity of one component. A number past the last component is refused. -/
def setComponent? (c : Config) (s : Severity) (number : UInt32) : Option Config :=
  match OwnComponent.ofNumber? number with
  | none => none
  | some o =>
    some { c with verbosityOf := fun p => if p = o then asSet s.kept else c.verbosityOf p }

def limit (c : Config) (component : Component) : UInt8 :=
  match component.own? with
  | none => c.verbosity
  | some o => (c.verbosityOf o).getD c.verbosity

/-- Whether a message of this severity and component is logged. -/
def passes (c : Config) (s : Severity) (component : Component) : Bool :=
  s.kept ≤ c.limit component

/-! ## Laws -/

/-- Only numbers past the last component are refused. -/
theorem setComponent?_eq_none_iff (c : Config) (s : Severity) (n : UInt32) :
    c.setComponent? s n = none ↔ OwnComponent.ofNumber? n = none := by
  unfold setComponent?
  split <;> simp_all

theorem passes_mono {c d : Config} {s : Severity} {component : Component}
    (h : c.limit component ≤ d.limit component) (hs : c.passes s component) :
    d.passes s component := by
  simp only [passes, decide_eq_true_eq] at *
  exact UInt8.le_trans hs h

end Config

end KeyedColumns.Log
