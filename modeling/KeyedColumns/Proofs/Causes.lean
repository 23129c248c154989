import KeyedColumns.Proofs.Indistinguishable

/-!
# Why calls fail

A call fails for what its caller can see in the entries and in what is given, and the code says why.
-/

namespace KeyedColumns

/-- Why a call on a collection with some entries fails. -/
inductive Cause (column : ItemId → Column) (entries : List Entry) :
    Kind → Call → CollectionError → Prop where
  | noSuchKey (kind : Kind) (key : String) (h : ∀ x ∈ entries, x.key ≠ key) :
    Cause column entries kind (.lookupKey key) .keyNotFound
  | pastEnd (kind : Kind) (position : Nat) (h : entries.length ≤ position) :
    Cause column entries kind (.lookupPosition position) .positionOutOfRange
  | notByItem (kind : Kind) (item : Option ItemId) :
    Cause column entries kind (.containsItem item) .membershipRequiresKey
  | readOnly (call : Call) (h : call.mutates) : Cause column entries .view call .immutable
  | refused (kind : Kind) (call : Call) (e : CollectionError) (hk : kind ≠ .view)
    (h : FirstFault column kind call.offered e) : Cause column entries kind call e
  | removesNothing : Cause column entries .dedupe (.remove none) .nullItem
  | noSuchItem (i : ItemId) (h : ∀ x ∈ entries, x.item ≠ i) :
    Cause column entries .dedupe (.remove (some i)) .itemNotFound

variable {column : ItemId → Column} {self : Reference} {kind : Kind} {c : Contents} {call : Call}
  {e : CollectionError}

/-! ## Calls that bring nothing in -/

theorem Contents.errorOf_lookupKey (hc : c.Coherent) {key : String} :
    errorOf (c.lookupKey kind key) = some e ↔ e = .keyNotFound ∧ ∀ x ∈ c.entries, x.key ≠ key := by
  have hnone : c.find? key = none ↔ ∀ x ∈ c.entries, x.key ≠ key := by
    simp [hc.find?_eq]
  rw [← hnone, lookupKey]
  cases c.find? key <;> simp [errorOf, Refusal.of, eq_comm]

theorem Contents.errorOf_lookupPosition (hc : c.Coherent) {position : Nat} :
    errorOf (c.lookupPosition kind position) = some e ↔
      e = .positionOutOfRange ∧ c.entries.length ≤ position := by
  have hnone : c.items[position]? = none ↔ c.entries.length ≤ position := by
    simp [hc.items_eq, members]
  rw [← hnone, lookupPosition]
  cases c.items[position]? <;> simp [errorOf, Refusal.of, eq_comm]

theorem Dedupe.errorOf_remove (hc : c.Whole) {i : ItemId} :
    errorOf (tryRemove column self c (some i)) = some e ↔
      e = .itemNotFound ∧ ∀ x ∈ c.entries, x.item ≠ i := by
  have hnone : i ∉ c.active ↔ ∀ x ∈ c.entries, x.item ≠ i := by
    simp [hc.mem_active, Contents.mem_members]
  rw [← hnone, tryRemove]
  by_cases h : i ∈ c.active <;> simp [h, errorOf, Refusal.of, eq_comm]

/-! ## Any call -/

theorem errorOf_of_cause (hc : c.Whole) (hfor : call.isFor kind)
    (h : Cause column c.entries kind call e) :
    errorOf (call.attempt column self kind c) = some e := by
  cases h with
  | noSuchKey _ key h =>
    rw [Call.attempt, errorOf_map, Contents.errorOf_lookupKey hc.toCoherent]
    exact ⟨rfl, h⟩
  | pastEnd _ position h =>
    rw [Call.attempt, errorOf_map, Contents.errorOf_lookupPosition hc.toCoherent]
    exact ⟨rfl, h⟩
  | notByItem => rw [Call.attempt]; rfl
  | readOnly _ h => rw [Call.attempt_error_of_view h]; rfl
  | refused _ _ _ hk h =>
    obtain ⟨x, hx, -⟩ := exists_firstFault_iff.mp ⟨e, h⟩
    exact (Call.errorOf_attempt_of_brings hk hfor (Call.brings_of_mem_offered hx)).mpr h
  | removesNothing => rfl
  | noSuchItem i h =>
    simp only [Call.attempt, errorOf_map]
    exact (Dedupe.errorOf_remove hc).mpr ⟨rfl, h⟩

theorem cause_of_errorOf (hc : c.Whole) (hfor : call.isFor kind)
    (h : errorOf (call.attempt column self kind c) = some e) :
    Cause column c.entries kind call e := by
  -- A view refuses what would change it before it looks at what is given.
  by_cases hv : kind = .view ∧ call.mutates
  · obtain ⟨rfl, hm⟩ := hv
    rw [Call.attempt_error_of_view hm] at h
    cases h
    exact .readOnly call hm
  by_cases hb : call.brings
  · have hk : kind ≠ .view := fun hk => hv ⟨hk, Call.mutates_of_brings hb⟩
    exact .refused kind call e hk ((Call.errorOf_attempt_of_brings hk hfor hb).mp h)
  cases call with
  | lookupKey key =>
    rw [Call.attempt, errorOf_map, Contents.errorOf_lookupKey hc.toCoherent] at h
    obtain ⟨rfl, h⟩ := h
    exact .noSuchKey kind key h
  | lookupPosition position =>
    rw [Call.attempt, errorOf_map, Contents.errorOf_lookupPosition hc.toCoherent] at h
    obtain ⟨rfl, h⟩ := h
    exact .pastEnd kind position h
  | containsItem item =>
    rw [Call.attempt] at h
    cases h
    exact .notByItem kind item
  | remove item =>
    cases kind with
    | view => exact absurd ⟨rfl, rfl⟩ hv
    | lenient => simp [Call.isFor] at hfor
    | dedupe =>
      simp only [Call.attempt, errorOf_map] at h
      cases item with
      | none =>
        cases h
        exact .removesNothing
      | some i =>
        obtain ⟨rfl, hgone⟩ := (Dedupe.errorOf_remove hc).mp h
        exact .noSuchItem i hgone
  | _ => exact absurd rfl hb

theorem codeOf_eq_failed_iff {α : Type} {x : Except Refusal (Done α)} :
    codeOf x = .failed e ↔ errorOf x = some e := by
  cases x <;> simp [codeOf, errorOf]

/--
As long as members of deduplicating collections and of views keep their keys, a call and a construction
fail just for what the caller can see, and the code names it: of a batch, what is wrong with the first
element that offends.
-/
theorem fails_for_cause {config : Log.Config} {r : Registry}
    (h : Run Sparing (.empty config) r) :
    (∀ slot c call, r.collection? slot = some c → call.isFor c.kind → r.knows call.items →
      ∃ result code, r.outcome (.call slot call (.code .success)) = .reply (.coded result code) ∧
        ∀ e, code = .failed e ↔ Cause r.catalogue.column (r.contents c).entries c.kind call e) ∧
    (∀ slot kind given logger, kind ≠ .view → r.knows (given.filterMap (·.2)) →
      ∃ code, r.outcome (.create slot kind given logger (.code .success)) =
          .reply (.coded (.flag true) code) ∧
        ∀ e, code = .failed e ↔
          FirstFault r.catalogue.column kind (given.map fun g => (g.2, some g.1)) e) ∧
    ∀ kind given, (∃ e, FirstFault r.catalogue.column kind given e) ↔
      ∃ x ∈ given, Offends r.catalogue.column kind x := by
  refine ⟨fun slot c call hc hfor hi => ?_, fun slot kind given logger hk hi => ?_,
    fun kind given => exists_firstFault_iff⟩
  · obtain ⟨result, hreply⟩ := Registry.outcome_call_coded hc hfor hi
    refine ⟨result, _, hreply, fun e => ?_⟩
    rw [codeOf_eq_failed_iff]
    exact ⟨cause_of_errorOf (h.whole hc) hfor, errorOf_of_cause (h.whole hc) hfor⟩
  · refine ⟨_, r.outcome_create slot kind hi logger, fun e => ?_⟩
    rw [codeOf_eq_failed_iff, Kind.errorOf_construct hk]

/-- A batch with a missing item after one that is given with another key than its own, which is empty;
an item that is a member no more; and a position past the end, through a view. -/
theorem fails_for_cause_of_batch : ∃ config r, Run Sparing (.empty config) r ∧
    (∃ result, r.outcome (.call "d" (.populate [("a", some (.made "a")), ("x", some (.made "u")),
      ("n", none)]) (.code .success)) = .reply (.coded result (.failed .keyMismatch))) ∧
    (∃ result, r.outcome (.call "d" (.remove (some (.made "b"))) (.code .success)) =
      .reply (.coded result (.failed .itemNotFound))) ∧
    (∃ result, r.outcome (.call "v" (.lookupPosition 1) (.code .success)) =
      .reply (.coded result (.failed .positionOutOfRange))) ∧
    ∃ code, r.outcome (.create "l" .lenient [("x", some (.made "u"))] none (.code .success)) =
      .reply (.coded (.flag true) code) ∧ ∀ e, code ≠ .failed e := by
  have h : Run Sparing (.empty (.ofDefault .info false)) _ := Run.refl
    |>.act (.makeItem "a" (.named "a")) trivial
    |>.act (.makeItem "b" (.named "b")) trivial
    |>.act (.makeItem "u" (.named "")) trivial
    |>.act (.create "d" .dedupe [("a", some (.made "a")), ("b", some (.made "b"))] none .raising)
      trivial
    |>.act (.freeze "v" "d") trivial
    |>.act (.call "d" (.remove (some (.made "b"))) .raising) trivial
  obtain ⟨hcall, hcreate, hany⟩ := fails_for_cause h
  refine ⟨_, _, h, ?_, ?_, ?_, ?_⟩
  · obtain ⟨result, code, hreply, hcode⟩ := hcall "d"
      ⟨.dedupe, ⟨⟨0⟩, ⟨0⟩, ⟨0⟩⟩, ⟨none, .collection⟩⟩
      (.populate [("a", some (.made "a")), ("x", some (.made "u")), ("n", none)])
      (by decide) rfl (by decide)
    have hfirst : code = .failed .keyMismatch := by
      refine (hcode _).mpr (.refused _ _ _ (by decide)
        ⟨[(some (.made "a"), some "a")], _, _, rfl, ?_, .mismatched _ _ (by decide)⟩)
      simp only [List.mem_singleton, forall_eq]
      rintro (_ | ⟨_, _, hk⟩ | ⟨_, _, hk⟩)
      · exact hk (by decide)
      · revert hk
        decide
    exact ⟨result, hfirst ▸ hreply⟩
  · obtain ⟨result, code, hreply, hcode⟩ := hcall "d"
      ⟨.dedupe, ⟨⟨0⟩, ⟨0⟩, ⟨0⟩⟩, ⟨none, .collection⟩⟩ (.remove (some (.made "b")))
      (by decide) rfl (by decide)
    have hgone : code = .failed .itemNotFound := (hcode _).mpr (.noSuchItem _ (by decide))
    exact ⟨result, hgone ▸ hreply⟩
  · obtain ⟨result, code, hreply, hcode⟩ := hcall "v"
      ⟨.view, ⟨⟨0⟩, ⟨0⟩, ⟨0⟩⟩, ⟨none, .collection⟩⟩ (.lookupPosition 1) (by decide) rfl (by decide)
    have hpast : code = .failed .positionOutOfRange := (hcode _).mpr (.pastEnd _ _ (by decide))
    exact ⟨result, hpast ▸ hreply⟩
  · obtain ⟨code, hreply, hcode⟩ := hcreate "l" .lenient [("x", some (.made "u"))] none (by decide)
      (by decide)
    refine ⟨code, hreply, fun e he => ?_⟩
    obtain ⟨x, hx, ho⟩ := (hany _ _).mp ⟨e, (hcode e).mp he⟩
    obtain rfl := List.mem_singleton.mp hx
    cases ho

end KeyedColumns
