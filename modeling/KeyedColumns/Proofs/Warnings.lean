import KeyedColumns.Proofs.Contexts
import KeyedColumns.Proofs.Failure

/-!
# Warnings

A call that fails warns once, of the cause that it reports, wherever in the call the cause arises. A
construction that fails adds that the collection stays empty. Whatever succeeds warns of nothing.
-/

namespace KeyedColumns

open Log (Severity)

/-- Those of the notices that are warnings. -/
def warnings (notices : List Notice) : List Notice := notices.filter (·.severity = .warning)

/-- The only warning is of the cause. -/
def Refusal.WarnsOnce (f : Refusal) : Prop :=
  ∃ operation, warnings f.notices = [.emitted operation f.error]

/-- The only warning is of the cause, if the attempt fails; else there is none. -/
def WarnsOnce {α : Type} (x : Except Refusal (Done α)) : Prop :=
  ∃ operation, warnings (noticesOf x) = (errorOf x).toList.map (Notice.emitted operation)

/-- Those of the records that are warnings. -/
def LogRecord.warnings (log : List LogRecord) : List LogRecord :=
  log.filter (·.notice.severity = .warning)

theorem WarnsOnce.map {α β : Type} {x : Except Refusal (Done α)} (h : WarnsOnce x) (f : α → β) :
    WarnsOnce (x.map (·.map f)) := by
  cases x <;> exact h

variable {column : ItemId → Column} {self : Reference} {kind : Kind} {c : Contents}
  {item : Option ItemId} {key : Option String}

namespace Lenient

end Lenient

namespace Dedupe

/-! ### Checks -/

end Dedupe

namespace Registry

variable {r : Registry} {slot : String} {context : Log.Context} {logger : Nat}

variable {r : Registry} {slot : String} {kind : Kind} {given : List (String × Option ItemId)}

end Registry

end KeyedColumns
