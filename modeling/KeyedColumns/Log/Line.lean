import KeyedColumns.Log.Component
import KeyedColumns.Log.Severity
import KeyedColumns.Log.Timestamp

/-!
# Log lines

A message is written as one block: the time, the severity, the thread, the component if it is one of
the library's own, the place in the source, and the text.
-/

namespace KeyedColumns.Log

/-- Where and when a message was logged. -/
structure Site where
  file : String
  function : String
  line : Nat
  time : Timestamp

/-- How the identity of no thread is written. -/
def noThread : String := "\x7bNot-any-thread\x7d"

/-- All that is known of a message but its text. -/
structure Metadata where
  component : Component
  severity : Severity
  site : Site
  /-- The nickname of the thread that logs. It is empty if the thread has none. -/
  nickname : List UInt8 := []
  /-- The identity of the thread that logs, as text. It matters if there is no nickname. -/
  thread : String := noThread

/-- Writes messages, with the time in one of two styles. Dates are those of a time zone. -/
structure Writer where
  calendarStamps : Bool
  zone : Timestamp.Zone

namespace Writer

/-- The time of a message in the writer's style. -/
def stamp (w : Writer) (t : Timestamp) : String :=
  if w.calendarStamps then t.calendarText w.zone else t.plainText

/-- What is written before the text of a message. A thread without a nickname goes by its identity. -/
def heading (w : Writer) (m : Metadata) : List UInt8 :=
  Text.bytes (w.stamp m.site.time ++ " [" ++ m.severity.abbreviation ++ "]: T")
    ++ (if m.nickname.isEmpty then Text.bytes m.thread else m.nickname)
    ++ Text.bytes (": "
      ++ (match m.component.text? with
        | some text => text ++ ": "
        | none => "")
      ++ Text.place m.site.file m.site.function m.site.line ++ ": ")

/-- The block that a message is written as. -/
def block (w : Writer) (m : Metadata) (message : List UInt8) : List UInt8 :=
  w.heading m ++ message ++ Text.bytes "\n"

/-- A block holds the text of its message as it is, and a newline ends it. -/
theorem block_ends (w : Writer) (m : Metadata) (message : List UInt8) :
    message ++ [10] <:+ w.block m message := by
  unfold block
  rw [List.append_assoc]
  exact List.suffix_append _ _

end Writer

end KeyedColumns.Log
