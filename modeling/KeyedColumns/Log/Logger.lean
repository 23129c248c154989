import KeyedColumns.Log.Config
import KeyedColumns.Log.Line

/-!
# Loggers

A logger keeps what it writes in a buffer, or sends it to two streams, which may be one and the same.
A session is a configuration, a logger made from it, and the thread that logs.
-/

namespace KeyedColumns.Log

/-- What has been written to the ordinary output and to the one for urgent messages. -/
structure Written where
  out : List UInt8
  err : List UInt8
deriving DecidableEq

namespace Written

def empty : Written := ⟨[], []⟩

end Written

/-- Where blocks go. Each writer keeps the style of time that held when the logger was made. -/
inductive Logger where
  /-- Everything into one buffer. -/
  | buffer (writer : Writer)
  /-- Two writers onto one stream. -/
  | joint (ordinary urgent : Writer)
  /-- Two writers onto a stream each. -/
  | split (ordinary urgent : Writer)

inductive LoggerKind where
  | buffer
  | joint
  | split
deriving DecidableEq

namespace Logger

def make (config : Config) (zone : Timestamp.Zone) : LoggerKind → Logger
  | .buffer => .buffer ⟨config.calendarStamps, zone⟩
  | .joint => .joint ⟨config.calendarStamps, zone⟩ ⟨config.calendarStamps, zone⟩
  | .split => .split ⟨config.calendarStamps, zone⟩ ⟨config.calendarStamps, zone⟩

/-- What a message adds to the outputs. Urgent ones go through the second writer, if there are two. -/
def write (l : Logger) (m : Metadata) (message : List UInt8) : Written :=
  match l with
  | .buffer w => ⟨w.block m message, []⟩
  | .joint ordinary urgent =>
    ⟨(if m.severity.isUrgent then urgent else ordinary).block m message, []⟩
  | .split ordinary urgent =>
    if m.severity.isUrgent then ⟨[], urgent.block m message⟩ else ⟨ordinary.block m message, []⟩

end Logger

/-- A thread: its identity as text, and the nickname it has been given. -/
structure Thread where
  identity : String
  nickname : Option (List UInt8)

namespace Thread

/-- Fills in who logs: the nickname of the thread, or else its identity. -/
def sign (t : Thread) (m : Metadata) : Metadata :=
  match t.nickname with
  | some name => { m with nickname := name }
  | none => { m with thread := t.identity }

/-- Gives a nickname; an empty one takes it away. -/
def rename (t : Thread) (name : List UInt8) : Thread :=
  { t with nickname := if name.isEmpty then none else some name }

end Thread

/-! ## Sessions -/

/-- A logger at work. -/
structure Session where
  config : Config
  logger : Logger
  thread : Thread
  /-- Where and when the messages arise that bring no site of their own. -/
  site : Site

/-- What happens to a logger. -/
inductive SessionStep where
  /-- A message is handed over with all its facts, past the filter. The thread signs it if `signed`. -/
  | log (metadata : Metadata) (signed : Bool) (message : List UInt8)
  /-- A message is reported: through the filter unless `unfiltered`, and to no logger if `muted`. -/
  | report (severity : Severity) (component : Component) (message : List UInt8)
    (unfiltered muted : Bool)
  /-- The thread takes a nickname, and says so unless `quiet`. -/
  | nickname (name : List UInt8) (quiet : Bool)
  /-- Time passes, or the next messages arise at another place. -/
  | moved (site : Site)
  | asksWhether (severity : Severity) (component : Component)
  | setCalendarStamps (value : Bool)
  | setDefault (severity : Severity) (reset : Bool)
  | setComponent (severity : Severity) (number : UInt32)

/-- What a step of a session yields besides text. -/
inductive SessionReply where
  | done
  | flag (value : Bool)
  /-- How often the text of a reported message was put together. -/
  | evaluations (count : Nat)
  | outOfRange
deriving DecidableEq

namespace Session

/-- A session on a fresh logger of the given kind. -/
def start (config : Config) (zone : Timestamp.Zone) (kind : LoggerKind) (identity : String)
    (site : Site) : Session :=
  { config, logger := Logger.make config zone kind, thread := ⟨identity, none⟩, site }

/-- Writes a message that arises at the session's own site, signed by its thread. -/
def write (s : Session) (severity : Severity) (component : Component) (message : List UInt8) :
    Written :=
  s.logger.write (s.thread.sign { component, severity, site := s.site }) message

/-- What a thread says that takes a nickname. -/
def greeting (s : Session) (name : List UInt8) : List UInt8 :=
  Text.bytes ("Thread ID [" ++ s.thread.identity ++ "] now logs as [") ++ name ++ Text.bytes "]."

/-- The session after a step, what the step has written, and its reply. -/
def step (s : Session) : SessionStep → Session × Written × SessionReply
  | .log metadata signed message =>
    (s, s.logger.write (if signed then s.thread.sign metadata else metadata) message, .done)
  | .report severity component message unfiltered muted =>
    if !muted && (unfiltered || s.config.passes severity component) then
      (s, s.write severity component message, .evaluations 1)
    else (s, .empty, .evaluations 0)
  | .nickname name quiet =>
    let s := { s with thread := s.thread.rename name }
    if !quiet && s.config.passes .info .logging then
      (s, s.write .info .logging (s.greeting name), .done)
    else (s, .empty, .done)
  | .moved site => ({ s with site }, .empty, .done)
  | .asksWhether severity component => (s, .empty, .flag (s.config.passes severity component))
  | .setCalendarStamps value =>
    ({ s with config := { s.config with calendarStamps := value } }, .empty, .done)
  | .setDefault severity reset =>
    ({ s with config := s.config.setDefault severity reset }, .empty, .done)
  | .setComponent severity number =>
    match s.config.setComponent? severity number with
    | some config => ({ s with config }, .empty, .done)
    | none => (s, .empty, .outOfRange)

/-- The session after some steps, with what each of them has written and replied. -/
def run (s : Session) : List SessionStep → Session × List (Written × SessionReply)
  | [] => (s, [])
  | first :: rest =>
    let (s, answer) := s.step first
    let (s, answers) := s.run rest
    (s, answer :: answers)

end Session

end KeyedColumns.Log
