import KeyedColumns.Proofs.Outcome
import KeyedColumns.Proofs.Representation
import KeyedColumns.Proofs.Visiting

/-!
# Collections that no read tells apart

Reads are answered from the indexes and from the set of items that are present, and comparing looks at
the entries alone. The two agree since the entries determine all the rest.
-/

namespace KeyedColumns

open Registry (answer)

/-- Whether a question is about contents, and not about how a collection is printed or logs. -/
def Query.isRead : Query → Bool
  | print | context => false
  | _ => true

/-- Two slots with collections that answer all reads alike, those that fail included. -/
structure Indistinguishable (r : Registry) (a b : String) : Prop where
  ask : ∀ query : Query, query.isRead → r.outcome (.ask a query) = r.outcome (.ask b query)
  lookup : ∀ (call : Call) mode, ¬ call.mutates →
    r.outcome (.call a call mode) = r.outcome (.call b call mode)
  iteration : ∀ body,
    (answer (.iterate a body) r).2.outcome = (answer (.iterate b body) r).2.outcome

/-! ## Entries determine the rest -/

namespace Contents

/-- The index is that of the entries, and just their items are present. -/
structure Whole (c : Contents) : Prop extends Coherent c where
  present : ∀ i ∈ c.members, i ∈ c.active

theorem Whole.mem_active {c : Contents} (h : c.Whole) {i : ItemId} :
    i ∈ c.active ↔ i ∈ c.members :=
  ⟨h.active i, h.present i⟩

theorem Whole.eq_of_entries {c d : Contents} (hc : c.Whole) (hd : d.Whole)
    (h : c.entries = d.entries) : c = d := by
  have hindex : c.index = d.index := by rw [hc.index, hd.index, h]
  have hactive : c.active = d.active := by
    ext i
    rw [hc.mem_active, hd.mem_active, members, members, h]
  obtain ⟨⟨es⟩, x, s⟩ := c
  obtain ⟨⟨fs⟩, y, t⟩ := d
  simp_all [entries]

theorem Whole.agree_iff {c d : Contents} (hc : c.Whole) (hd : d.Whole) : c.agree d ↔ c = d := by
  unfold agree
  rw [decide_eq_true_iff]
  exact ⟨hc.eq_of_entries hd, congrArg entries⟩

theorem Coherent.zipWith_keys_items {c : Contents} (hc : c.Coherent) :
    List.zipWith Entry.mk c.keys c.items = c.entries := by
  rw [hc.items_eq]
  simp [keys, members]

end Contents

/-- A deduplicating collection whose members keep their keys has them all present, and so has any
lenient one; what is made as a view stays empty. -/
theorem keeps_whole : Keeps Sparing fun kind cat c => c.Settled kind cat ∧ c.Whole where
  empty := fun kind cat => ⟨keeps_settled.empty kind cat, Contents.coherent_empty, by
    simp [Contents.members, Contents.entries_empty]⟩
  append := by
    rintro cat c e he ⟨hs, hw⟩
    refine ⟨keeps_settled.append cat c e he hs, hw.toCoherent.append e, fun i hi => ?_⟩
    rw [Contents.members_append, List.mem_append, List.mem_singleton] at hi
    rw [Contents.mem_active_append]
    exact hi.elim (fun hi => .inr (hw.present i hi)) (fun hi => .inl hi.symm)
  change := by
    rintro cat c d hcd ⟨hs, -⟩
    -- Who is present after a change follows from what is settled, not from who was present before.
    have hd := keeps_settled.change cat c d hcd hs
    exact ⟨hd, hd.toCoherent, (hd.faithful rfl).present⟩
  catalogue := by
    rintro kind cat cat' c hk ⟨hs, hw⟩
    exact ⟨hs.kept hk, hw⟩
  image := by
    rintro kind f cat cat' c d hi ⟨hs, hw⟩
    refine ⟨hs.image hi, hi.coherent hw.toCoherent, fun j hj => ?_⟩
    rw [hi.members_eq] at hj
    obtain ⟨i, hm, rfl⟩ := List.mem_map.mp hj
    exact (hi.active _).mpr ⟨i, hs.known i hm, hw.present i hm, rfl⟩
  rekey := by
    rintro r l i key slot c ht ha hi hc ⟨hs, hw⟩
    exact ⟨keeps_settled.rekey r l i key slot c ht ha hi hc hs, hw⟩

theorem Run.whole {config : Log.Config} {r : Registry} (h : Run Sparing (.empty config) r)
    {slot : String} {c : Collection} (hc : r.collection? slot = some c) : (r.contents c).Whole := by
  obtain ⟨kind, -, hw⟩ := keeps_whole.of_run h hc
  exact hw

/-! ## Reads go by the contents -/

variable {r : Registry} {a b : String} {c d : Collection}

theorem Call.isFor_of_not_mutates {call : Call} (h : ¬ call.mutates) (kind : Kind) :
    call.isFor kind := by
  cases call <;> first | rfl | exact absurd rfl h

theorem indistinguishable_of_contents (hw : (r.contents c).Coherent)
    (hc : r.collection? a = some c) (hd : r.collection? b = some d)
    (h : r.contents c = r.contents d) : Indistinguishable r a b where
  ask := by
    intro query hq
    have hask : r.ask c query = r.ask d query := by
      cases query <;> simp only [Registry.ask, h]
      all_goals cases hq
    rw [Registry.outcome_ask hc, Registry.outcome_ask hd, hask]
  lookup := by
    intro call mode hm
    rw [Registry.outcome_call hc, Registry.outcome_call hd, call.isFor_of_not_mutates hm,
      call.isFor_of_not_mutates hm]
    unfold Registry.attempt
    rw [h, Registry.reply_attempt hm mode (.slot a) (.slot b) c.kind d.kind]
  iteration := by
    intro body
    rw [answer, answer, hc, hd]
    simp only [(loop_iterate _ hw).2, (loop_iterate _ (h ▸ hw)).2, h]

theorem Indistinguishable.entries_eq (h : Indistinguishable r a b) (hc : r.collection? a = some c)
    (hd : r.collection? b = some d) : (r.contents c).entries = (r.contents d).entries := by
  have hentries := h.ask .entries rfl
  rw [Registry.outcome_ask hc, Registry.outcome_ask hd] at hentries
  exact Value.entries.inj (Outcome.value.inj hentries)

/--
As long as members of deduplicating collections and of views keep their keys, two collections of any
kinds agree if and only if no read tells them apart; and the entries are the keys, each with the item
at its position. So agreeing is an equivalence.
-/
theorem agree_iff_indistinguishable {config : Log.Config} (h : Run Sparing (.empty config) r) :
    (∀ a b c d, r.collection? a = some c → r.collection? b = some d →
      (r.agree c d ↔ Indistinguishable r a b)) ∧
    (∀ a c, r.collection? a = some c →
      List.zipWith Entry.mk (r.contents c).keys (r.contents c).items = (r.contents c).entries) ∧
    Equivalence fun c d : Collection => r.agree c d = true := by
  refine ⟨fun a b c d hc hd => ?_, fun a c hc => (h.whole hc).zipWith_keys_items, ?_⟩
  · constructor
    · intro hagree
      have heq := ((h.whole hc).agree_iff (h.whole hd)).mp hagree
      exact indistinguishable_of_contents (h.whole hc).toCoherent hc hd heq
    · intro hi
      exact decide_eq_true (hi.entries_eq hc hd)
  · unfold Registry.agree Contents.agree
    simp only [decide_eq_true_eq]
    exact ⟨fun _ => rfl, Eq.symm, Eq.trans⟩

/-- No read tells a lenient collection from a view with the same entry, and some read tells it from one
with another item of the same name under the same key. -/
theorem agree_iff_indistinguishable_of_view : ∃ config r c, Run Sparing (.empty config) r ∧
    Indistinguishable r "l" "v" ∧ ¬ Indistinguishable r "l" "m" ∧ r.collection? "m" = some c ∧
    List.zipWith Entry.mk (r.contents c).keys (r.contents c).items = [⟨"a", .made "b"⟩] := by
  have h : Run Sparing (.empty (.ofDefault .info false)) _ := Run.refl
    |>.act (.makeItem "a" (.named "a")) trivial
    |>.act (.makeItem "b" (.named "a")) trivial
    |>.act (.create "l" .lenient [("a", some (.made "a"))] none .raising) trivial
    |>.act (.create "m" .lenient [("a", some (.made "b"))] none .raising) trivial
    |>.act (.create "d" .dedupe [] none .raising) trivial
    |>.act (.freeze "v" "d") trivial
    |>.act (.call "d" (.add (some (.made "a")) none) .raising) trivial
    |>.act (.setKey (.made "b") "z") (sparing_setKey (by decide))
  obtain ⟨hiff, hzip, -⟩ := agree_iff_indistinguishable h
  have hview := hiff "l" "v" ⟨.lenient, ⟨⟨0⟩, ⟨0⟩, ⟨0⟩⟩, ⟨none, .collection⟩⟩
    ⟨.view, ⟨⟨2⟩, ⟨2⟩, ⟨2⟩⟩, ⟨none, .collection⟩⟩ (by decide) (by decide)
  have hother := hiff "l" "m" ⟨.lenient, ⟨⟨0⟩, ⟨0⟩, ⟨0⟩⟩, ⟨none, .collection⟩⟩
    ⟨.lenient, ⟨⟨1⟩, ⟨1⟩, ⟨1⟩⟩, ⟨none, .collection⟩⟩ (by decide) (by decide)
  exact ⟨_, _, _, h, hview.mp (by decide), fun hi => absurd (hother.mpr hi) (by decide),
    by decide, hzip "m" ⟨.lenient, ⟨⟨1⟩, ⟨1⟩, ⟨1⟩⟩, ⟨none, .collection⟩⟩ (by decide)⟩

end KeyedColumns
