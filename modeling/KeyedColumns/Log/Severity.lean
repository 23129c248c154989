/-!
# Severities of log messages

Eight severities have names, from the gravest to the most detailed; greater levels are allowed and
have none.
-/

namespace KeyedColumns.Log

/-- How grave a message is: the smaller the level, the graver. -/
structure Severity where
  level : UInt64
deriving DecidableEq

namespace Severity

/-- The severity that no message has. -/
def nothing : Severity := ⟨0⟩
def fatal : Severity := ⟨1⟩
def error : Severity := ⟨2⟩
def warning : Severity := ⟨3⟩
def info : Severity := ⟨4⟩
def debug : Severity := ⟨5⟩
def trace : Severity := ⟨6⟩
def data : Severity := ⟨7⟩

/-- The names, in the order of the levels. -/
def names : List String :=
  ["NONE", "FATAL", "ERROR", "WARNING", "INFO", "DEBUG", "TRACE", "DATA"]

/-- The short names that a log line shows. -/
def abbreviations : List String :=
  ["none", "fatl", "eror", "warn", "info", "debg", "trce", "data"]

/-- The name of a severity: a question mark past the last named one. -/
def name (s : Severity) : String := names[s.level.toNat]?.getD "?"

/-- The short name of a severity: question marks past the last named one. -/
def abbreviation (s : Severity) : String := abbreviations[s.level.toNat]?.getD "????"

def ofName? (name : String) : Option Severity :=
  (names.idxOf? name).map fun i => ⟨i.toUInt64⟩

/-- At least as grave as a warning. -/
def isUrgent (s : Severity) : Bool := s.level ≤ warning.level

end Severity

end KeyedColumns.Log
