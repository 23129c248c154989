import KeyedColumns.Proofs.Failure

/-!
# What callers are told, and what they leave

The outcome of a question and of a call, and the contents after a call, from the contents before it.
-/

namespace KeyedColumns

/-- What the caller of an action is told. -/
def Registry.outcome (r : Registry) (action : Action) : Outcome := (r.act action).2.outcome

theorem Mode.success_congr {first second : Mode} (h : first.given.isSome = second.given.isSome)
    (result : Result) : second.success true result = first.success true result := by
  cases first <;> cases second <;> first | rfl | cases h

theorem Mode.failure_congr {first second : Mode} (h : first.given.isSome = second.given.isSome)
    (call : Call) (error : CollectionError) : second.failure call error = first.failure call error := by
  cases first <;> cases second <;> first | rfl | cases h

theorem Call.isFor_of_dedupe (call : Call) {kind : Kind} (hk : kind = .dedupe) :
    call.isFor kind := by
  subst hk
  cases call <;> rfl

namespace Registry

variable {r : Registry} {slot : String} {c : Collection}

theorem outcome_ask (hc : r.collection? slot = some c) (query : Query) :
    r.outcome (.ask slot query) =
      if r.knows query.namedItems then .value (r.ask c query) else .malformed := by
  simp only [outcome, act, hc]
  split <;> rfl

theorem outcome_call (hc : r.collection? slot = some c) (call : Call) (mode : Mode) :
    r.outcome (.call slot call mode) =
      if call.isFor c.kind && r.knows call.items then
        .reply (reply mode c.kind call (r.attempt slot c call))
      else .malformed := by
  simp only [outcome, act, hc, call_eq]
  split <;> rfl

theorem outcome_call_coded (hc : r.collection? slot = some c) {call : Call}
    (hfor : call.isFor c.kind) (hi : r.knows call.items) :
    ∃ result, r.outcome (.call slot call (.code .success)) =
      .reply (.coded result (codeOf (r.attempt slot c call))) := by
  rw [outcome_call hc, hfor, hi]
  cases r.attempt slot c call with
  | error f => exact ⟨_, rfl⟩
  | ok d =>
    refine ⟨d.value, ?_⟩
    simp [reply, Mode.success, codeOf]

theorem outcome_create (r : Registry) (slot : String) (kind : Kind)
    {given : List (String × Option ItemId)} (hi : r.knows (given.filterMap (·.2)))
    (logger : Option Nat) :
    r.outcome (.create slot kind given logger (.code .success)) =
      .reply (.coded (.flag true)
        (codeOf (kind.construct r.catalogue.column (.slot slot) given))) := by
  rw [outcome, act_create_eq r slot kind hi, create_eq]
  cases kind.construct r.catalogue.column (.slot slot) given with
  | error f => rfl
  | ok d => simp [Mode.success, codeOf, Answer.of]

theorem contents_act_call (h : Reachable r) (hc : r.collection? slot = some c) {call : Call}
    (hfor : call.isFor c.kind) (hi : r.knows call.items) (mode : Mode) :
    (r.act (.call slot call mode)).1.contents c =
      contentsAfter (r.contents c) (r.attempt slot c call) := by
  rw [act_call_eq hc hfor hi, call_eq]
  exact (h.contents_write hc hc _).trans (if_pos rfl)

theorem knows_congr {r' : Registry} (h : ∀ i, r'.catalogue.knows i = r.catalogue.knows i)
    (items : List ItemId) : r'.knows items = r.knows items := by
  unfold knows
  rw [funext h]

theorem knows_singleton {i : ItemId} (hi : r.catalogue.knows i) : r.knows [i] := by
  simp [knows, hi]

/-! ## Calls that succeed -/

theorem outcome_call_ok (hc : r.collection? slot = some c) {call : Call} (hfor : call.isFor c.kind)
    (hi : r.knows call.items) {d : Done Result} (hd : r.attempt slot c call = .ok d) (mode : Mode)
    (hs : ¬ call.Silent c.kind := by rintro ⟨-, ⟨⟩⟩) :
    r.outcome (.call slot call mode) = .reply (mode.success true d.value) := by
  rw [outcome_call hc, hfor, hi, hd]
  simp [reply, hs]

theorem act_call_ok (hc : r.collection? slot = some c) {call : Call} (hfor : call.isFor c.kind)
    (hi : r.knows call.items) {d : Done Result} (hd : r.attempt slot c call = .ok d) (mode : Mode) :
    (r.act (.call slot call mode)).1 = r.write c d.contents := by
  rw [act_call_eq hc hfor hi, call_eq, hd]
  rfl

theorem contents_act_call_ok (h : Reachable r) (hc : r.collection? slot = some c) {call : Call}
    (hfor : call.isFor c.kind) (hi : r.knows call.items) {d : Done Result}
    (hd : r.attempt slot c call = .ok d) (mode : Mode) :
    (r.act (.call slot call mode)).1.contents c = d.contents := by
  rw [contents_act_call h hc hfor hi, hd]
  rfl

/-! ## Calls that fail -/

theorem act_call_unknown (hc : r.collection? slot = some c) {call : Call} (hi : ¬ r.knows call.items)
    (mode : Mode) : r.act (.call slot call mode) = (r, .malformed) := by
  simp [act, hc, hi]

theorem outcome_call_error (hc : r.collection? slot = some c) {call : Call}
    (hfor : call.isFor c.kind) (hi : r.knows call.items) {f : Refusal}
    (hf : r.attempt slot c call = .error f) (mode : Mode) :
    r.outcome (.call slot call mode) = .reply (mode.failure call f.error) := by
  rw [outcome_call hc, hfor, hi, hf]
  rfl

theorem act_call_error (hc : r.collection? slot = some c) {call : Call} (hfor : call.isFor c.kind)
    (hi : r.knows call.items) {f : Refusal} (hf : r.attempt slot c call = .error f) (mode : Mode) :
    (r.act (.call slot call mode)).1 = r := by
  rw [act_call_eq hc hfor hi, call_eq, hf]
  exact write_contents r c

theorem refuse_again (hc : r.collection? slot = some c) {call : Call}
    (hfor : call.isFor c.kind)
    (hrefused : ¬ r.knows call.items ∨ ∃ f, r.attempt slot c call = .error f) (first second : Mode) :
    ((r.act (.call slot call first)).1.act (.call slot call second)).1 =
      (r.act (.call slot call first)).1 ∧
    (first.given.isSome = second.given.isSome →
      (r.act (.call slot call first)).1.outcome (.call slot call second) =
        r.outcome (.call slot call first)) := by
  by_cases hi : r.knows call.items
  · obtain ⟨f, hf⟩ := hrefused.resolve_left (not_not.mpr hi)
    rw [act_call_error hc hfor hi hf, act_call_error hc hfor hi hf, outcome_call_error hc hfor hi hf,
      outcome_call_error hc hfor hi hf]
    exact ⟨rfl, fun halike => by rw [Mode.failure_congr halike]⟩
  · unfold outcome
    rw [act_call_unknown hc hi first, act_call_unknown hc hi second]
    exact ⟨rfl, fun _ => rfl⟩

/-! ## Replies to reads -/

section

variable {column column' : ItemId → Column} {d : Contents} {c : Contents}

theorem reply_lookupKey {key : String} (h : c.find? key = d.find? key) (mode : Mode)
    (s t : Reference) (j k : Kind) :
    reply mode j (.lookupKey key) (Call.attempt column s j c (.lookupKey key)) =
      reply mode k (.lookupKey key) (Call.attempt column' t k d (.lookupKey key)) := by
  simp only [Call.attempt, Contents.lookupKey, h]
  cases d.find? key with
  | none => rfl
  | some i => simp [reply, Except.map, Done.map, Call.Silent]

theorem reply_lookupPosition {p : Nat} (h : c.items[p]? = d.items[p]?) (mode : Mode)
    (s t : Reference) (j k : Kind) :
    reply mode j (.lookupPosition p) (Call.attempt column s j c (.lookupPosition p)) =
      reply mode k (.lookupPosition p) (Call.attempt column' t k d (.lookupPosition p)) := by
  simp only [Call.attempt, Contents.lookupPosition, h]
  cases d.items[p]? with
  | none => rfl
  | some i => simp [reply, Except.map, Done.map, Call.Silent]

/-- The kind of a collection shows in what a failing read logs, and not in what it replies. -/
theorem reply_attempt {call : Call} (h : ¬ call.mutates) (mode : Mode) (s t : Reference)
    (j k : Kind) :
    reply mode j call (call.attempt column s j c) =
      reply mode k call (call.attempt column t k c) := by
  cases call with
  | lookupKey key => exact reply_lookupKey rfl mode s t j k
  | lookupPosition position => exact reply_lookupPosition rfl mode s t j k
  | containsItem item =>
    simp only [Call.attempt, Contents.refuseItem]
    rfl
  | _ => exact absurd rfl h

end

end Registry

end KeyedColumns
