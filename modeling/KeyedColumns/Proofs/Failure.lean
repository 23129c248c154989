import KeyedColumns.Proofs.Frame
import KeyedColumns.Proofs.Routines

/-!
# Calls that fail

A failing call tells its caller so and changes nothing. What the caller's code says after a call is
up to the call alone, but for an empty batch, of which a deduplicating collection says nothing.
-/

namespace KeyedColumns

/-- Whether a caller learns from a reply that the call failed. -/
def Reply.failed : Reply → Bool
  | coded _ code => code.isFailure
  | returned _ => false
  | raised _ => true

/-! ## Replies -/

namespace Registry

variable {r : Registry} {slot : String} {c : Collection} {call : Call} {mode : Mode}

theorem act_call_eq (hc : r.collection? slot = some c) (hfor : call.isFor c.kind)
    (hi : r.knows call.items) (mode : Mode) :
    r.act (.call slot call mode) = ((r.call slot c call mode).1,
      .of (.reply (r.call slot c call mode).2.1) (r.call slot c call mode).2.2) := by
  simp only [act, hc, hfor, hi, Bool.and_self, if_true]

end Registry

theorem Mode.failed_failure (mode : Mode) (call : Call) (error : CollectionError) :
    (mode.failure call error).failed := by
  cases mode <;> rfl

theorem Mode.failed_constructFailure (mode : Mode) (kind : Kind) (error : CollectionError) :
    (mode.constructFailure kind error).failed := by
  cases mode <;> rfl

/-- What succeeded looks failed only if it says nothing and the caller's code said so before. -/
theorem Mode.of_failed_success {mode : Mode} {clears : Bool} {result : Result}
    (h : (mode.success clears result).failed) : ¬ clears ∧ ∃ e, mode = .code (.failed e) := by
  cases mode with
  | raising => cases h
  | code before =>
    cases clears with
    | true => cases h
    | false =>
      cases before with
      | success => cases h
      | failed e => exact ⟨nofun, e, rfl⟩

/-! ## All or nothing -/

/-- The caller learns of every failure, and a call that looks failed to it changed nothing. -/
structure AllOrNothing (r r' : Registry) (slot : String) (c : Collection) (call : Call)
    (mode : Mode) (reply : Reply) : Prop where
  unchanged : reply.failed → r' = r ∧ ∃ error, reply = mode.failure call error
  told : ∀ f, r.attempt slot c call = .error f → reply = mode.failure call f.error
  refused : ∀ e ∈ call.offered, Offends r.catalogue.column c.kind e → reply.failed
  immutable : c.kind = .view → call.mutates → reply = mode.failure call .immutable

/-- A construction that failed leaves all others alone, and an empty collection or none. -/
structure LeftEmpty (r r' : Registry) (slot : String) (kind : Kind) (mode : Mode) : Prop where
  others : Reseated r r' [slot]
  catalogue : r'.catalogue = r.catalogue
  raising : mode = .raising → r' = r
  code : ∀ before, mode = .code before → ∃ c, r'.collection? slot = some c ∧ c.kind = kind ∧
    (r'.contents c).entries = [] ∧ (r'.contents c).index = KeyIndex.empty ∧
    ∀ i, i ∉ (r'.contents c).active

namespace Registry

variable {r : Registry} {slot : String} {c : Collection} {call : Call}

theorem allOrNothing_call (hfor : call.isFor c.kind) (mode : Mode) :
    AllOrNothing r (r.call slot c call mode).1 slot c call mode (r.call slot c call mode).2.1 := by
  rw [call_eq]
  cases hd : r.attempt slot c call with
  | error f =>
    refine ⟨fun _ => ⟨write_contents r c, f.error, rfl⟩, ?_,
      fun _ _ _ => mode.failed_failure call f.error, ?_⟩
    · intro g hg
      rw [hd] at hg
      cases hg
      rfl
    · intro hk hm
      unfold attempt at hd
      rw [hk, Call.attempt_error_of_view hm] at hd
      cases hd
      rfl
  | ok d =>
    have hok : ∀ {p : Prop}, (∃ f, r.attempt slot c call = .error f) → p := by
      rintro p ⟨f, hf⟩
      rw [hd] at hf
      cases hf
    refine ⟨?_, fun f hf => hok ⟨f, hf⟩, ?_, ?_⟩
    · -- Only a silent call can look failed here, to a caller whose code said so before.
      intro hfailed
      obtain ⟨hclears, error, rfl⟩ := Mode.of_failed_success hfailed
      have hs : call.Silent c.kind := by simpa using hclears
      unfold attempt at hd
      rw [Call.attempt_silent hs] at hd
      cases hd
      refine ⟨write_contents r c, error, ?_⟩
      simp [reply, Mode.success, Mode.failure, hs]
    · intro e he ho
      exact hok (Call.attempt_error_of_offends hfor he ho)
    · intro hk hm
      refine hok ⟨Call.refusal (r.contents c) call.operation, ?_⟩
      unfold attempt
      rw [hk]
      exact Call.attempt_error_of_view hm

theorem failed_create {kind : Kind} {given : List (String × Option ItemId)} {f : Refusal}
    (h : kind.construct r.catalogue.column (.slot slot) given = .error f) (logger : Option Nat)
    (mode : Mode) : (r.create slot kind given logger mode).2.1.failed := by
  rw [create_eq, h]
  exact mode.failed_constructFailure kind f.error

theorem create_of_failed {kind : Kind} {given : List (String × Option ItemId)}
    {logger : Option Nat} {mode : Mode} (h : (r.create slot kind given logger mode).2.1.failed) :
    (r.create slot kind given logger mode).1 = r.unfilled slot kind logger mode := by
  rw [create_eq] at h ⊢
  cases hd : kind.construct r.catalogue.column (.slot slot) given with
  | error f => rfl
  | ok d =>
    rw [hd] at h
    obtain ⟨hclears, e, rfl⟩ := Mode.of_failed_success h
    have hk : kind = .view := by simpa using hclears
    subst hk
    cases hd
    rfl

theorem act_create_eq (r : Registry) (slot : String) (kind : Kind)
    {given : List (String × Option ItemId)} (hi : r.knows (given.filterMap (·.2)))
    (logger : Option Nat) (mode : Mode) :
    r.act (.create slot kind given logger mode) = ((r.create slot kind given logger mode).1,
      .of (.reply (r.create slot kind given logger mode).2.1)
        (r.create slot kind given logger mode).2.2) := by
  simp only [act, hi, if_true]

end Registry

/--
A call that fails, on a collection of any kind and to a caller with a code or without one, leaves
the registry as it is; one element that offends is enough, be it the last. A construction that fails
leaves everything else as it is.
-/
theorem all_or_nothing {r : Registry} (h : Reachable r) :
    (∀ slot c call mode, r.collection? slot = some c → call.isFor c.kind → r.knows call.items →
      ∃ r' reply log, r.act (.call slot call mode) = (r', .of (.reply reply) log) ∧
        AllOrNothing r r' slot c call mode reply) ∧
    ∀ slot kind given logger mode, r.knows (given.filterMap (·.2)) →
      ∃ r' reply log, r.act (.create slot kind given logger mode) = (r', .of (.reply reply) log) ∧
        (kind ≠ .view → ∀ e ∈ given, Offends r.catalogue.column kind (e.2, some e.1) →
          reply.failed) ∧
        (reply.failed → LeftEmpty r r' slot kind mode) := by
  constructor
  · intro slot c call mode hc hfor hi
    exact ⟨_, _, _, Registry.act_call_eq hc hfor hi mode, Registry.allOrNothing_call hfor mode⟩
  · intro slot kind given logger mode hi
    have hact := r.act_create_eq slot kind hi logger mode
    refine ⟨_, _, _, hact, ?_, fun hfailed => ?_⟩
    · intro hk e he ho
      obtain ⟨f, hf⟩ := Kind.construct_error_of_offends hk he ho
      exact Registry.failed_create hf logger mode
    · have hunfilled := Registry.create_of_failed hfailed
      obtain ⟨l, ht⟩ := h.tidy
      have hseat : Reseated r (r.act (.create slot kind given logger mode)).1 [slot] :=
        ht.act_reseated (by intro slot call mode e; cases e)
      rw [hact] at hseat
      rw [hunfilled] at hseat ⊢
      refine ⟨hseat, ?_, fun hm => by rw [hm]; rfl, fun before hm => ?_⟩
      · cases mode <;> rfl
      · subst hm
        simp only [Registry.unfilled]
        refine ⟨⟨kind, r.parts.next, ⟨logger, .collection⟩⟩, ?_, rfl, ?_⟩
        · rw [Registry.collection?_establish, if_pos rfl]
        · have hempty : (r.establish slot kind ⟨logger, .collection⟩ Contents.empty).contents
              ⟨kind, r.parts.next, ⟨logger, .collection⟩⟩ = Contents.empty :=
            r.parts.contents_push_next Contents.empty
          rw [hempty]
          exact ⟨rfl, rfl, ActiveSet.notMem_empty⟩

/-- A batch that is bad at its end, an empty batch for a view, and a half good construction. -/
theorem all_or_nothing_of_last : ∃ r, Reachable r ∧
    (∃ reply log, r.act (.call "d" (.extend [some (.made "b"), some (.made "a"), none])
      (.code .success)) = (r, .of (.reply reply) log) ∧ reply.failed) ∧
    (∃ log, r.act (.call "v" (.extend []) .raising) =
      (r, .of (.reply (.raised ⟨.failed .immutable, "extend"⟩)) log)) ∧
    ∃ r' reply log, r.act (.create "e" .dedupe [("b", some (.made "b")), ("x", none)] none
      (.code .success)) = (r', .of (.reply reply) log) ∧ reply.failed ∧
      LeftEmpty r r' "e" .dedupe (.code .success) := by
  have h : Reachable _ := ⟨.ofDefault .info false, Run.refl
    |>.act (.makeItem "a" (.named "a")) trivial
    |>.act (.makeItem "b" (.named "b")) trivial
    |>.act (.create "d" .dedupe [("a", some (.made "a"))] none .raising) trivial
    |>.act (.freeze "v" "d") trivial
    |>.act (.setKey (.made "a") "z") trivial⟩
  obtain ⟨hcall, hcreate⟩ := all_or_nothing h
  refine ⟨_, h, ?_, ?_, ?_⟩
  · obtain ⟨r', reply, log, hact, hall⟩ := hcall "d"
      ⟨.dedupe, ⟨⟨0⟩, ⟨0⟩, ⟨0⟩⟩, ⟨none, .collection⟩⟩
      (.extend [some (.made "b"), some (.made "a"), none]) (.code .success) (by decide)
      (by decide) (by decide)
    have hfailed := hall.refused (none, none) (by decide) (.missing _ _)
    rw [(hall.unchanged hfailed).1] at hact
    exact ⟨reply, log, hact, hfailed⟩
  · obtain ⟨r', reply, log, hact, hall⟩ := hcall "v"
      ⟨.view, ⟨⟨0⟩, ⟨0⟩, ⟨0⟩⟩, ⟨none, .collection⟩⟩ (.extend []) .raising (by decide) (by decide)
      (by decide)
    obtain rfl := hall.immutable rfl rfl
    rw [(hall.unchanged rfl).1] at hact
    exact ⟨log, hact⟩
  · obtain ⟨r', reply, log, hact, hrefused, hempty⟩ := hcreate "e" .dedupe
      [("b", some (.made "b")), ("x", none)] none (.code .success) (by decide)
    have hfailed := hrefused (by decide) ("x", none) (by decide) (.missing _ _)
    exact ⟨r', reply, log, hact, hfailed, hempty hfailed⟩

/-! ## What the caller's code says -/

/--
After a call to a caller with a code, the code says what came of the call, whatever it said before;
only after a silent call it says what it said. After a construction it says what came of that.
-/
theorem code_after (r : Registry) :
    (∀ slot c call before, r.collection? slot = some c → call.isFor c.kind → r.knows call.items →
      ∃ r' result code log,
        r.act (.call slot call (.code before)) = (r', .of (.reply (.coded result code)) log) ∧
        (¬ call.Silent c.kind → code = codeOf (r.attempt slot c call)) ∧
        (call.Silent c.kind → code = before)) ∧
    ∀ slot kind given logger before, r.knows (given.filterMap (·.2)) → kind ≠ .view →
      ∃ r' log, r.act (.create slot kind given logger (.code before)) =
        (r', .of (.reply (.coded (.flag true)
          (codeOf (kind.construct r.catalogue.column (.slot slot) given)))) log) := by
  constructor
  · intro slot c call before hc hfor hi
    rw [Registry.act_call_eq hc hfor hi, Registry.call_eq]
    by_cases hs : call.Silent c.kind
    · unfold Registry.attempt
      rw [Call.attempt_silent hs]
      exact ⟨_, _, _, _, rfl, fun h => absurd hs h, fun _ => by simp [hs]⟩
    · cases r.attempt slot c call with
      | error f => exact ⟨_, _, _, _, rfl, fun _ => rfl, fun h => absurd h hs⟩
      | ok d => exact ⟨_, _, _, _, rfl, fun _ => by simp [hs, codeOf], fun h => absurd h hs⟩
  · intro slot kind given logger before hi hk
    rw [r.act_create_eq slot kind hi, Registry.create_eq]
    cases kind.construct r.catalogue.column (.slot slot) given with
    | error f => exact ⟨_, _, rfl⟩
    | ok d =>
      simp only [Mode.success, ne_eq, hk, not_false_iff, decide_true, if_true]
      exact ⟨_, _, rfl⟩

/-- A code that said something else, after a success, a failure and a construction. -/
theorem code_after_failure : ∃ r : Registry,
    (∃ r' result log, r.act (.call "d" (.populate []) (.code (.failed .nullItem))) =
      (r', .of (.reply (.coded result .success)) log)) ∧
    (∃ r' result log, r.act (.call "d" (.remove (some (.made "a"))) (.code (.failed .nullItem))) =
      (r', .of (.reply (.coded result (.failed .itemNotFound))) log)) ∧
    ∃ r' log, r.act (.create "l" .lenient [("p", none)] none (.code .success)) =
      (r', .of (.reply (.coded (.flag true) (.failed .nullItem))) log) := by
  obtain ⟨r, hr⟩ : ∃ r, r = (((Registry.empty (.ofDefault .info false)).act
    (.makeItem "a" (.named "a"))).1.act (.create "d" .dedupe [] none .raising)).1 := ⟨_, rfl⟩
  obtain ⟨hcall, hcreate⟩ := code_after r
  have hd : r.collection? "d" = some ⟨.dedupe, ⟨⟨0⟩, ⟨0⟩, ⟨0⟩⟩, ⟨none, .collection⟩⟩ := by
    subst hr
    decide
  have ha : r.knows [.made "a"] := by
    subst hr
    decide
  refine ⟨r, ?_, ?_, ?_⟩
  · obtain ⟨r', result, code, log, hact, hcode, -⟩ :=
      hcall "d" _ (.populate []) (.failed .nullItem) hd rfl rfl
    have hsuccess : code = .success := by
      subst hr
      exact hcode (by rintro ⟨-, h⟩; cases h)
    exact ⟨r', result, log, hsuccess ▸ hact⟩
  · obtain ⟨r', result, code, log, hact, hcode, -⟩ :=
      hcall "d" _ (.remove (some (.made "a"))) (.failed .nullItem) hd rfl ha
    have hmissing : code = .failed .itemNotFound := by
      subst hr
      exact hcode (by rintro ⟨-, h⟩; cases h)
    exact ⟨r', result, log, hmissing ▸ hact⟩
  · exact hcreate "l" .lenient [("p", none)] none .success rfl (by decide)

/-- Given an empty batch, a deduplicating collection leaves the code of an earlier failure. -/
theorem code_kept_by_empty_batch : ∃ r c d, Reachable r ∧ r.collection? "d" = some c ∧
    r.attempt "d" c (.extend []) = .ok d ∧
    (r.act (.call "d" (.extend []) (.code (.failed .nullItem)))).2.outcome =
      .reply (.coded (.flag false) (.failed .nullItem)) ∧
    (r.act (.call "d" (.extend []) (.code .success))).2.outcome =
      .reply (.coded (.flag false) .success) := by
  have h : Reachable _ := ⟨.ofDefault .info false, Run.refl
    |>.act (.create "d" .dedupe [] none .raising) trivial⟩
  exact ⟨_, ⟨.dedupe, ⟨⟨0⟩, ⟨0⟩, ⟨0⟩⟩, ⟨none, .collection⟩⟩, _, h, by decide, rfl, rfl, rfl⟩

end KeyedColumns
