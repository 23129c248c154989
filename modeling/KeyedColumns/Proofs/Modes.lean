import KeyedColumns.Proofs.Frame
import KeyedColumns.Proofs.Failure

/-!
# Callers with a code and without one

A caller that brings no code has failures raised. It comes to the same as if the caller had brought a
clear code and had raised what the code says afterwards.
-/

namespace KeyedColumns

/-- What a caller gets that raises what its code says of an operation. -/
def Reply.raise (operation : Operation) : Reply → Reply
  | coded result code => if code.isFailure then raised ⟨code, operation.name⟩ else returned result
  | reply => reply

/-- The record without the address of the object that it tells of. -/
def LogRecord.unaddressed (x : LogRecord) : LogRecord :=
  { x with notice := x.notice.readdress .unnamed }

/-! ## Calls -/

/-- With a code to write to, no call raises anything. -/
theorem Call.exists_on_code (column : ItemId → Column) (self : Reference) (kind : Kind) (call : Call)
    (c : Contents) (before : ErrorCode) :
    ∃ result w code, w.code = some code ∧
      (call.routine column self kind).on (.start c (some before)) = (.ok result, w) := by
  unfold Work.start
  by_cases hs : call.Silent kind
  · exact ⟨_, _, _, rfl, Call.routine_on_silent hs⟩
  · rw [Call.routine_on hs]
    cases call.attempt column self kind c <;> exact ⟨_, _, _, rfl, rfl⟩

namespace Registry

/-- Called without a code, the operation runs on a fresh one, once, and raises what that says. -/
theorem call_modes (r : Registry) (slot : String) (c : Collection) (call : Call) :
    ∃ r' result code log,
      r.call slot c call (.code .success) = (r', .coded result code, log) ∧
      r.call slot c call .raising =
        (r', Reply.raise call.operation (.coded result code), log) := by
  obtain ⟨result, w, code, hcode, hon⟩ := Call.exists_on_code r.catalogue.column (.slot slot) c.kind
    call (r.contents c) .success
  refine ⟨r.write c w.contents, result, code, r.log c.context w.notices, ?_, ?_⟩
  · simp [Registry.call, run, Mode.given, hon, Reply.of, hcode]
  · have hraises : (call.routine r.catalogue.column (.slot slot) c.kind).on
        (.start (r.contents c) none) = Routine.raised call.operation (.ok result, w) := by
      rw [← hon]
      exact Call.raises_routine call _ _ _
    simp only [Registry.call, run, Mode.given, hraises, Routine.raised, hcode, Option.getD_some,
      Reply.raise]
    cases code.isFailure <;> rfl

/-! ## Constructions -/

theorem severity_readdress (self : Reference) (n : Notice) :
    (n.readdress self).severity = n.severity := by
  cases n <;> rfl

theorem unaddressed_log (r : Registry) (context : Log.Context) (notices : List Notice) :
    (r.log context notices).map LogRecord.unaddressed =
      r.log context (notices.map (Notice.readdress .unnamed)) := by
  unfold log
  cases context.logger with
  | none => rfl
  | some logger =>
    simp only [List.map_map, List.filter_map, Function.comp_def, severity_readdress]
    rfl

theorem create_modes (r : Registry) (slot : String) (kind : Kind)
    (given : List (String × Option ItemId)) (logger : Option Nat) :
    ∃ r₁ r₂ code log₁ log₂,
      r.create slot kind given logger (.code .success) = (r₁, .coded (.flag true) code, log₁) ∧
      r.create slot kind given logger .raising =
        (r₂, Reply.raise (.construct kind) (.coded (.flag true) code), log₂) ∧
      log₂.map LogRecord.unaddressed = log₁.map LogRecord.unaddressed ∧
      (¬ code.isFailure → r₂ = r₁ ∧ log₂ = log₁) ∧
      (code.isFailure → r₂ = r ∧ r₁ = r.establish slot kind ⟨logger, .collection⟩ .empty) := by
  simp only [create_eq]
  cases kind.construct r.catalogue.column (.slot slot) given with
  | ok d =>
    refine ⟨_, _, .success, _, _, ?_, rfl, rfl, fun _ => ⟨rfl, rfl⟩, nofun⟩
    simp [Mode.success]
  | error f =>
    refine ⟨_, _, .failed f.error, _, _, rfl, rfl, ?_, fun h => absurd rfl h,
      fun _ => ⟨rfl, rfl⟩⟩
    simp only [unaddressed_log, List.map_append, List.map_cons, Notice.readdress]

end Registry

/--
A caller without a code gets what a caller with a clear code gets that raises what the code says. Both
leave the same registry and the same log, but that a construction that fails leaves an empty collection
to the one and none to the other, whose address the log does not know.
-/
theorem modes_agree {r : Registry} (h : Reachable r) :
    (∀ slot c call, r.collection? slot = some c → call.isFor c.kind → r.knows call.items →
      ∃ r' result code log,
        r.act (.call slot call (.code .success)) = (r', .of (.reply (.coded result code)) log) ∧
        r.act (.call slot call .raising) =
          (r', .of (.reply (Reply.raise call.operation (.coded result code))) log)) ∧
    ∀ slot kind given logger, r.knows (given.filterMap (·.2)) →
      ∃ r₁ r₂ code log₁ log₂,
        r.act (.create slot kind given logger (.code .success)) =
          (r₁, .of (.reply (.coded (.flag true) code)) log₁) ∧
        r.act (.create slot kind given logger .raising) =
          (r₂, .of (.reply (Reply.raise (.construct kind) (.coded (.flag true) code))) log₂) ∧
        log₂.map LogRecord.unaddressed = log₁.map LogRecord.unaddressed ∧
        (¬ code.isFailure → r₂ = r₁ ∧ log₂ = log₁) ∧
        (code.isFailure → r₂ = r ∧ Reseated r r₁ [slot] ∧
          r₁ = r.establish slot kind ⟨logger, .collection⟩ .empty) := by
  constructor
  · intro slot c call hc hfor hi
    obtain ⟨r', result, code, log, hcoded, hraising⟩ := r.call_modes slot c call
    refine ⟨r', result, code, log, ?_, ?_⟩
    · rw [Registry.act_call_eq hc hfor hi, hcoded]
    · rw [Registry.act_call_eq hc hfor hi, hraising]
  · intro slot kind given logger hi
    obtain ⟨r₁, r₂, code, log₁, log₂, hcoded, hraising, hlog, hok, hfailed⟩ :=
      r.create_modes slot kind given logger
    have hact := r.act_create_eq slot kind hi logger
    obtain ⟨l, ht⟩ := h.tidy
    have hseat : Reseated r (r.act (.create slot kind given logger (.code .success))).1 [slot] :=
      ht.act_reseated (by intro slot call mode e; cases e)
    rw [hact, hcoded] at hseat
    refine ⟨r₁, r₂, code, log₁, log₂, ?_, ?_, hlog, hok, fun hf => ?_⟩
    · rw [hact, hcoded]
    · rw [hact, hraising]
    · exact ⟨(hfailed hf).1, hseat, (hfailed hf).2⟩

/-- A view that refuses, an addition that succeeds, and a construction that fails. -/
theorem modes_agree_of_view : ∃ r, Reachable r ∧
    (∃ r' log, r.act (.call "v" (.remove none) .raising) =
      (r', .of (.reply (.raised ⟨.failed .immutable, "remove"⟩)) log)) ∧
    (∃ r' log, r.act (.call "d" (.add (some (.made "b")) none) .raising) =
      (r', .of (.reply (.returned (.flag true))) log)) ∧
    ∃ r₁ log₁ log₂, r.act (.create "l" .lenient [("p", none)] (some 1) (.code .success)) =
        (r₁, .of (.reply (.coded (.flag true) (.failed .nullItem))) log₁) ∧
      r.act (.create "l" .lenient [("p", none)] (some 1) .raising) =
        (r, .of (.reply (.raised ⟨.failed .nullItem, "Column_collection"⟩)) log₂) ∧
      log₁ ≠ log₂ ∧ log₂.map LogRecord.unaddressed = log₁.map LogRecord.unaddressed := by
  have h : Reachable _ := ⟨.ofDefault .data false, Run.refl
    |>.act (.makeItem "a" (.named "a")) trivial
    |>.act (.makeItem "b" (.named "b")) trivial
    |>.act (.create "d" .dedupe [("a", some (.made "a"))] (some 1) .raising) trivial
    |>.act (.freeze "v" "d") trivial⟩
  obtain ⟨hcall, hcreate⟩ := modes_agree h
  refine ⟨_, h, ?_, ?_, ?_⟩
  · obtain ⟨r', result, code, log, hcoded, hraising⟩ := hcall "v"
      ⟨.view, ⟨⟨0⟩, ⟨0⟩, ⟨0⟩⟩, ⟨some 1, .collection⟩⟩ (.remove none) (by decide) rfl rfl
    cases hcoded
    exact ⟨_, _, hraising⟩
  · obtain ⟨r', result, code, log, hcoded, hraising⟩ := hcall "d"
      ⟨.dedupe, ⟨⟨0⟩, ⟨0⟩, ⟨0⟩⟩, ⟨some 1, .collection⟩⟩ (.add (some (.made "b")) none)
      (by decide) rfl (by decide)
    cases hcoded
    exact ⟨_, _, hraising⟩
  · obtain ⟨r₁, r₂, code, log₁, log₂, hcoded, hraising, hlog, -, hfailed⟩ :=
      hcreate "l" .lenient [("p", none)] (some 1) (by decide)
    cases hcoded
    obtain rfl := (hfailed rfl).1
    refine ⟨_, _, _, rfl, hraising, ?_, hlog⟩
    cases hraising
    decide

end KeyedColumns
