import KeyedColumns.Log.Logger
import Mathlib.Data.List.Perm.Basic

/-!
# What reaches each stream

Loggers differ only in where a block goes. A buffer and two writers onto one stream hold the same text,
and two streams share the blocks between them: the urgent ones go to one, all others to the other.
-/

namespace KeyedColumns.Log

/-! ## Messages -/

/-- A message as a logger is given it. -/
structure Message where
  metadata : Metadata
  text : List UInt8

def Message.isUrgent (m : Message) : Bool := m.metadata.severity.isUrgent

def Message.block (w : Writer) (m : Message) : List UInt8 := w.block m.metadata m.text

namespace Session

variable (s : Session) (steps : List SessionStep)

/-- A message that arises in the session's own thread, at its own site. -/
def ownMessage (severity : Severity) (component : Component) (text : List UInt8) : Message :=
  ⟨s.thread.sign { component, severity, site := s.site }, text⟩

/-- The message that a step gives to the logger, if it gives one. -/
def message? : SessionStep → Option Message
  | .log metadata signed text =>
    some ⟨if signed then s.thread.sign metadata else metadata, text⟩
  | .report severity component text unfiltered muted =>
    if !muted && (unfiltered || s.config.passes severity component) then
      some (s.ownMessage severity component text)
    else none
  | .nickname name quiet =>
    if !quiet && s.config.passes .info .logging then
      -- The thread says so under its new name.
      some ({ s with thread := s.thread.rename name }.ownMessage .info .logging (s.greeting name))
    else none
  | _ => none

/-- What the logger is given at each step of a run. -/
def given (s : Session) : List SessionStep → List (Option Message)
  | [] => []
  | first :: rest => s.message? first :: (s.step first).1.given rest

/-- The messages that the logger is given, in order. -/
def messages : List Message := (s.given steps).filterMap id

/-- What each step of a run has written. -/
def written : List Written := (s.run steps).2.map (·.1)

end Session

/-! ## One step, and a run -/

/-- What a logger adds to its outputs when it is given a message, or none. -/
def Logger.receive (l : Logger) (m : Option Message) : Written :=
  m.elim .empty fun m => l.write m.metadata m.text

/-- All that some steps have written. -/
def Written.total (ws : List Written) : Written :=
  ⟨(ws.map (·.out)).flatten, (ws.map (·.err)).flatten⟩

namespace Session

variable (s : Session) (l : Logger) (e : SessionStep) (steps : List SessionStep)

/-- A step writes its message and nothing else. All else that it does is the same with any logger. -/
theorem step_withLogger : { s with logger := l }.step e =
    ({ (s.step e).1 with logger := l }, l.receive (s.message? e), (s.step e).2.2) := by
  cases e with
  | log => rfl
  | report severity component text unfiltered muted =>
    simp only [step, message?]
    split <;> rfl
  | nickname name quiet =>
    simp only [step, message?]
    split <;> rfl
  | moved => rfl
  | asksWhether => rfl
  | setCalendarStamps => rfl
  | setDefault => rfl
  | setComponent severity number =>
    simp only [step]
    split <;> rfl

theorem message?_withLogger : { s with logger := l }.message? e = s.message? e := by
  cases e <;> rfl

theorem given_withLogger : { s with logger := l }.given steps = s.given steps := by
  induction steps generalizing s with
  | nil => rfl
  | cons first rest ih => rw [given, given, message?_withLogger, step_withLogger, ih]

theorem written_withLogger :
    { s with logger := l }.written steps = (s.given steps).map l.receive := by
  induction steps generalizing s with
  | nil => rfl
  | cons first rest ih =>
    have hfirst := s.step_withLogger l first
    have hrest := ih (s.step first).1
    rw [given, List.map_cons, ← hrest]
    simp only [written, run, hfirst, List.map_cons]

variable (config : Config) (zone : Timestamp.Zone) (kind : LoggerKind) (identity : String) (site : Site)

theorem given_start : (start config zone kind identity site).given steps =
    (start config zone .buffer identity site).given steps :=
  given_withLogger (start config zone .buffer identity site) (Logger.make config zone kind) steps

theorem written_start : (start config zone kind identity site).written steps =
    ((start config zone .buffer identity site).given steps).map
      (Logger.make config zone kind).receive :=
  written_withLogger (start config zone .buffer identity site) (Logger.make config zone kind) steps

end Session

/-! ## Streams -/

theorem flatten_stream {l : Logger} {stream : Written → List UInt8} {goes : Message → Bool}
    {block : Message → List UInt8} (hnone : stream .empty = [])
    (hsome : ∀ m, stream (l.receive (some m)) = if goes m then block m else [])
    (given : List (Option Message)) :
    ((given.map l.receive).map stream).flatten =
      (((given.filterMap id).filter goes).map block).flatten := by
  induction given with
  | nil => rfl
  | cons m rest ih =>
    rw [List.map_cons, List.map_cons, List.flatten_cons, ih]
    cases m with
    | none =>
      have hwritten : stream (l.receive none) = [] := hnone
      rw [hwritten, List.nil_append, List.filterMap_cons_none (f := id) rfl]
    | some m =>
      rw [hsome, List.filterMap_cons_some (f := id) rfl, List.filter_cons]
      split
      · rw [List.map_cons, List.flatten_cons]
      · rw [List.nil_append]

theorem total_receive {l : Logger} {toOut toErr : Message → Bool} {block : Message → List UInt8}
    (h : ∀ m, l.receive (some m) = ⟨if toOut m then block m else [], if toErr m then block m else []⟩)
    (given : List (Option Message)) :
    Written.total (given.map l.receive) =
      ⟨(((given.filterMap id).filter toOut).map block).flatten,
        (((given.filterMap id).filter toErr).map block).flatten⟩ := by
  unfold Written.total
  rw [flatten_stream rfl (fun m => congrArg Written.out (h m)),
    flatten_stream rfl (fun m => congrArg Written.err (h m))]

variable (config : Config) (zone : Timestamp.Zone) (given : List (Option Message))

theorem total_one {kind : LoggerKind} (hkind : kind ≠ .split) :
    Written.total (given.map (Logger.make config zone kind).receive) =
      ⟨((given.filterMap id).map (·.block ⟨config.calendarStamps, zone⟩)).flatten, []⟩ := by
  have hall : ∀ m, (Logger.make config zone kind).receive (some m) =
      ⟨if true then m.block ⟨config.calendarStamps, zone⟩ else [],
        if false then m.block ⟨config.calendarStamps, zone⟩ else []⟩ := by
    intro m
    cases kind with
    | buffer => rfl
    | joint =>
      -- Both writers have the style of time that held when they were made.
      show Written.mk _ _ = _
      rw [ite_self]
      rfl
    | split => exact absurd rfl hkind
  rw [total_receive hall, List.filter_true, List.filter_false]
  rfl

theorem total_split : Written.total (given.map (Logger.make config zone .split).receive) =
    ⟨(((given.filterMap id).filter (! ·.isUrgent)).map
        (·.block ⟨config.calendarStamps, zone⟩)).flatten,
      (((given.filterMap id).filter (·.isUrgent)).map
        (·.block ⟨config.calendarStamps, zone⟩)).flatten⟩ := by
  refine total_receive (fun m => ?_) given
  show (if m.isUrgent then _ else _) = _
  split <;> simp_all [Message.block]

theorem receive_split (m : Option Message) :
    ((Logger.make config zone .split).receive m).out ++
        ((Logger.make config zone .split).receive m).err =
      ((Logger.make config zone .buffer).receive m).out := by
  cases m with
  | none => rfl
  | some m =>
    show Written.out (if m.isUrgent then _ else _) ++ Written.err (if m.isUrgent then _ else _) = _
    split
    · exact List.nil_append _
    · exact List.append_nil _

/-- How the three kinds of logger lay out the blocks of some messages. -/
structure LaidOut (block : Message → List UInt8) (messages : List Message)
    (content : LoggerKind → Written) : Prop where
  /-- Whatever bytes a message has, its block ends with them and a newline. -/
  ends : ∀ m ∈ messages, m.text ++ [10] <:+ block m
  buffer : content .buffer = ⟨(messages.map block).flatten, []⟩
  joint : content .joint = content .buffer
  urgent : (content .split).err = ((messages.filter (·.isUrgent)).map block).flatten
  others : (content .split).out = ((messages.filter (! ·.isUrgent)).map block).flatten
  together : ((messages.filter (·.isUrgent)).map block ++
    (messages.filter (! ·.isUrgent)).map block).Perm (messages.map block)

theorem laidOut_total : LaidOut (Message.block ⟨config.calendarStamps, zone⟩) (given.filterMap id)
    fun kind => Written.total (given.map (Logger.make config zone kind).receive) where
  ends := fun m _ => Writer.block_ends _ m.metadata m.text
  buffer := total_one config zone given (by decide)
  joint := by rw [total_one config zone given (by decide), total_one config zone given (by decide)]
  urgent := by rw [total_split]
  others := by rw [total_split]
  together := by
    rw [← List.map_append]
    exact (List.filter_append_perm Message.isUrgent _).map _

/--
A buffer and a stream that gets everything hold one block for each message, in order, in the style of time
that held when the logger was made. Of two streams one holds the blocks of the messages at least as grave
as a warning and the other the rest, each in order, so that together they hold every block once; and what
a step adds to either is what it adds to the buffer.
-/
theorem streams_share_blocks (config : Config) (zone : Timestamp.Zone) (identity : String)
    (site : Site) (steps : List SessionStep) :
    (∀ kind, (Session.start config zone kind identity site).messages steps =
      (Session.start config zone .buffer identity site).messages steps) ∧
    LaidOut (Message.block ⟨config.calendarStamps, zone⟩)
      ((Session.start config zone .buffer identity site).messages steps)
      (fun kind => Written.total ((Session.start config zone kind identity site).written steps)) ∧
    ((Session.start config zone .split identity site).written steps).map (fun w => w.out ++ w.err) =
      ((Session.start config zone .buffer identity site).written steps).map (·.out) := by
  refine ⟨fun kind => ?_, ?_, ?_⟩
  · rw [Session.messages, Session.given_start]
    rfl
  · simp only [Session.written_start]
    exact laidOut_total config zone _
  · simp only [Session.written_start, List.map_map]
    exact List.map_congr_left fun m _ => receive_split config zone m

/-- A message with a newline and a NUL by a thread that has no nickname, what the thread says when it takes
one, a message that does not pass, and one past the last severity. The style asked for late is not used. -/
theorem streams_share_blocks_of_greeting : ∃ (config : Config) (zone : Timestamp.Zone) (site : Site)
    (steps : List SessionStep),
    (Written.total ((Session.start config zone .joint "7" site).written steps)).out =
      Text.bytes ("1970-01-01 04:29:59.-00001 +0430 [warn]: T7: a:b(3): up\n\x00\n" ++
        "1970-01-01 04:30:00.000002 +0430 [info]: Tq: KEYSEQ-LOG: f:g(1): " ++
        "Thread ID [7] now logs as [q].\n" ++
        "1970-01-01 04:30:00.000002 +0430 [????]: Tq: f:g(1): \n") ∧
    (Written.total ((Session.start config zone .split "7" site).written steps)).err =
      Text.bytes "1970-01-01 04:29:59.-00001 +0430 [warn]: T7: a:b(3): up\n\x00\n" := by
  let site : Site := ⟨"f", "g", 1, ⟨2⟩⟩
  let steps : List SessionStep :=
    [.log { component := .empty, severity := .warning, site := ⟨"a", "b", 3, ⟨-1000001⟩⟩ } true
        (Text.bytes "up\n\x00"),
      .setCalendarStamps false,
      .nickname (Text.bytes "q") false,
      .report .debug .collection (Text.bytes "down") false false,
      .report ⟨9⟩ .empty [] true false]
  obtain ⟨-, hlaid, -⟩ := streams_share_blocks (.ofDefault .info true) (fun _ => 16200) "7" site steps
  refine ⟨.ofDefault .info true, fun _ => 16200, site, steps, ?_, ?_⟩
  · rw [hlaid.joint]
    decide +kernel
  · rw [hlaid.urgent]
    decide +kernel

end KeyedColumns.Log
