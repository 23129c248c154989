import KeyedColumns.Proofs.Placing
import KeyedColumns.Proofs.Steadiness
import Mathlib.Data.List.Perm.Subperm

/-!
# Replacing

What replacing leaves is said by keys: the entries under the item's key and its name go, and the item
stands where the first of them stood. Where the name finds nothing besides, adding comes to the same.
-/

namespace KeyedColumns

/-- What becomes of contents when an item takes the place of what stands under its key and its name. -/
structure Replaced (cat : Catalogue) (i : ItemId) (c d : Contents) : Prop where
  entries : d.entries = (c.entries.filter (!(cat.column i).meets ·)).insertIdx
    (c.entries.findIdx (cat.column i).meets) ⟨(cat.column i).key, i⟩
  others : d.entries.filter (!(cat.column i).meets ·) = c.entries.filter (!(cat.column i).meets ·)
  at_most_two : (c.entries.filter (cat.column i).meets).length ≤ 2
  size : d.size + (c.entries.filter (cat.column i).meets).length = c.size + 1
  gone : ∀ e ∈ c.entries, (cat.column i).meets e → e.item ≠ i → e.item ∉ d.active
  exact : d.Exact cat

/-! ## Counting -/

namespace Entry

variable {e : Entry} {yields : Entry → Bool} {es : List Entry}

theorem length_placed :
    (e.placed yields es).length + (es.filter yields).length = es.length + 1 := by
  have hsplit := List.length_eq_length_filter_add (l := es) yields
  rw [perm_placed.length_eq, List.length_cons]
  omega

end Entry

theorem Column.meets_own (column : ItemId → Column) (i : ItemId) :
    (column i).meets (Entry.own column i) := by
  simp [meets, Entry.own]

namespace Contents

variable {column : ItemId → Column} {self : Reference} {c : Contents} {i : ItemId}

theorem Deduplicated.length_meets (hc : c.Deduplicated) (col : Column) :
    (c.entries.filter col.meets).length ≤ 2 := by
  have hnodup : ((c.entries.filter col.meets).map (·.key)).Nodup :=
    hc.keys_nodup.sublist (List.filter_sublist.map _)
  have hsub : (c.entries.filter col.meets).map (·.key) ⊆ [col.key, col.name] := by
    intro k hk
    obtain ⟨e, he, rfl⟩ := List.mem_map.mp hk
    simpa [Column.meets] using (List.mem_filter.mp he).2
  simpa using (List.subperm_of_subset hnodup hsub).length_le

theorem Faithful.gone_of_meets (hc : c.Faithful column) (hk : (column i).key ≠ "") {e : Entry}
    (he : e ∈ c.entries) (hm : (column i).meets e) (hne : e.item ≠ i) :
    e.item ∉ (Dedupe.supplant column self c i).contents.active := by
  intro hactive
  obtain ⟨d, hd, hde⟩ := mem_members.mp ((hc.supplant hk).active _ hactive)
  rw [hc.entries_supplant] at hd
  rcases Entry.mem_placed.mp hd with rfl | ⟨hd, hnot⟩
  · exact hne hde.symm
  · rw [List.inj_on_of_nodup_map hc.members_nodup hd he hde] at hnot
    exact hnot hm

end Contents

/-! ## Replacing by key and name -/

variable {config : Log.Config} {r : Registry} {slot : String} {c : Collection} {i : ItemId}

/--
As long as members of deduplicating collections keep their keys, replacing succeeds for every item
whose key says something: the entries under its key and its name go, at most two, and the item stands
where the first of them stood, or at the end. All others stay as they are, and just the items of the
entries are present.
-/
theorem replaces_by_key_and_name (h : Run Steady (.empty config) r)
    (hc : r.collection? slot = some c) (hk : c.kind = .dedupe) (hi : r.catalogue.knows i)
    (hkey : (r.catalogue.column i).key ≠ "") (mode : Mode) :
    r.outcome (.call slot (.replace (some i)) mode) = .reply (mode.success true (.flag true)) ∧
    Replaced r.catalogue i (r.contents c)
      ((r.act (.call slot (.replace (some i)) mode)).1.contents c) := by
  have hfor := Call.isFor_of_dedupe (.replace (some i)) hk
  have hknows := Registry.knows_singleton hi
  have hfaithful := h.faithful hc hk
  have hexact := h.exact_call hc hk (.replace (some i)) mode
  obtain ⟨d, hd, hvalue, hcontents⟩ := r.attempt_replace slot hk hkey
  rw [Registry.outcome_call_ok hc hfor hknows hd, hvalue]
  rw [Registry.contents_act_call_ok h.reachable hc hfor hknows hd, hcontents] at hexact ⊢
  have hentries := hfaithful.entries_supplant (.slot slot) i
  refine ⟨rfl, hentries, ?_, hfaithful.length_meets _, ?_, ?_, hexact⟩
  · rw [hentries, replaced, Entry.filter_placed (by simp [Column.meets_own]), List.filter_filter]
    simp
  · rw [Contents.size, hentries]
    exact Entry.length_placed
  · exact fun e he hm hne => hfaithful.gone_of_meets hkey he hm hne

/-- An item that got its key while a view of a lenient collection showed it, and that comes in the
place of one entry by its name and of a later one by its key. -/
theorem replaces_by_key_and_name_of_both : ∃ config r c d, Run Steady (.empty config) r ∧
    r.collection? "d" = some c ∧
    (r.contents c).entries = [⟨"a", .made "a"⟩, ⟨"x", .made "x"⟩, ⟨"b", .made "b"⟩] ∧
    r.outcome (.call "d" (.replace (some (.made "n"))) .raising) =
      .reply (.returned (.flag true)) ∧
    (r.act (.call "d" (.replace (some (.made "n"))) .raising)).1.contents c = d ∧
    d.entries = [⟨"b", .made "n"⟩, ⟨"x", .made "x"⟩] ∧
    Replaced r.catalogue (.made "n") (r.contents c) d := by
  have h : Run Steady (.empty (.ofDefault .info false)) _ := Run.refl
    |>.act (.makeItem "a" (.named "a")) trivial
    |>.act (.makeItem "b" (.named "b")) trivial
    |>.act (.makeItem "x" (.named "x")) trivial
    |>.act (.makeItem "n" (.named "a")) trivial
    |>.act (.create "d" .dedupe [("a", some (.made "a")), ("x", some (.made "x")),
      ("b", some (.made "b"))] none .raising) trivial
    |>.act (.create "l" .lenient [("p", some (.made "n"))] none .raising) trivial
    |>.act (.freeze "v" "l") trivial
    |>.act (.setKey (.made "n") "b") (steady_setKey (by decide))
  have hreplaced := fun c (hc : Registry.collection? _ "d" = some c) hk hi hkey =>
    replaces_by_key_and_name h hc hk (i := .made "n") hi hkey .raising
  obtain ⟨hreply, hcontents⟩ := hreplaced ⟨.dedupe, ⟨⟨0⟩, ⟨0⟩, ⟨0⟩⟩, ⟨none, .collection⟩⟩
    (by decide) rfl (by decide) (by decide)
  exact ⟨_, _, _, _, h, by decide, by decide, hreply, rfl, hcontents.entries.trans (by decide),
    hcontents⟩

/-! ## Adding and replacing -/

theorem added_eq_replaced {column : ItemId → Column} {es : List Entry}
    (hname : (column i).name = (column i).key ∨ ∀ e ∈ es, e.key ≠ (column i).name) :
    added column es i = replaced column es i := by
  refine Entry.placed_congr fun e he => ?_
  unfold Column.meets
  rcases hname with heq | hne
  · rw [heq, Bool.or_self]
  · simp [hne e he]

/--
As long as members of deduplicating collections keep their keys, adding an item leaves what replacing
by it leaves if no entry stands under its name, or its name is its key; and adding says whether the
contents differ from those before.
-/
theorem adds_as_replaces (h : Run Steady (.empty config) r) (hc : r.collection? slot = some c)
    (hk : c.kind = .dedupe) (hi : r.catalogue.knows i) (hkey : (r.catalogue.column i).key ≠ "")
    (hname : (r.catalogue.column i).name = (r.catalogue.column i).key ∨
      ∀ e ∈ (r.contents c).entries, e.key ≠ (r.catalogue.column i).name) (adding replacing : Mode) :
    (r.act (.call slot (.add (some i) none) adding)).1 =
      (r.act (.call slot (.replace (some i)) replacing)).1 ∧
    ∃ changed, r.outcome (.call slot (.add (some i) none) adding) =
        .reply (adding.success true (.flag changed)) ∧
      (changed = true ↔
        (r.act (.call slot (.add (some i) none) adding)).1.contents c ≠ r.contents c) := by
  have hadd := Call.isFor_of_dedupe (.add (some i) none) hk
  have hreplace := Call.isFor_of_dedupe (.replace (some i)) hk
  have hknows := Registry.knows_singleton hi
  have hfaithful := h.faithful hc hk
  obtain ⟨d, hd, hvalue, hcontents⟩ := r.attempt_add slot hk hkey
  obtain ⟨d', hd', -, hcontents'⟩ := r.attempt_replace slot hk hkey
  have hsame : d.contents = d'.contents := by
    rw [hcontents, hcontents']
    refine (hfaithful.put hkey).eq_of_entries (hfaithful.supplant hkey) ?_
    rw [hfaithful.entries_put, hfaithful.entries_supplant, added_eq_replaced hname]
  refine ⟨?_, _, by rw [Registry.outcome_call_ok hc hadd hknows hd, hvalue], ?_⟩
  · rw [Registry.act_call_ok hc hadd hknows hd, Registry.act_call_ok hc hreplace hknows hd', hsame]
  · rw [Registry.contents_act_call_ok h.reachable hc hadd hknows hd, hcontents]
    exact hfaithful.put_changed_iff

/-- An item under a key that is there, with a name that is not; and one that is there already. -/
theorem adds_as_replaces_in_place : ∃ config r c, Run Steady (.empty config) r ∧
    r.collection? "d" = some c ∧
    (r.contents c).entries = [⟨"a", .made "a"⟩, ⟨"x", .made "x"⟩] ∧
    (r.act (.call "d" (.add (some (.made "m")) none) .raising)).1 =
      (r.act (.call "d" (.replace (some (.made "m"))) .raising)).1 ∧
    ((r.act (.call "d" (.replace (some (.made "m"))) .raising)).1.contents c).entries =
      [⟨"a", .made "m"⟩, ⟨"x", .made "x"⟩] ∧
    r.outcome (.call "d" (.add (some (.made "x")) none) .raising) =
      .reply (.returned (.flag false)) ∧
    (r.act (.call "d" (.add (some (.made "x")) none) .raising)).1.contents c = r.contents c := by
  have h : Run Steady (.empty (.ofDefault .info false)) _ := Run.refl
    |>.act (.makeItem "a" (.named "a")) trivial
    |>.act (.makeItem "x" (.named "x")) trivial
    |>.act (.makeItem "m" ⟨"n", "a"⟩) trivial
    |>.act (.create "d" .dedupe [("a", some (.made "a")), ("x", some (.made "x"))] none .raising)
      trivial
  have hagree := fun c i (hc : Registry.collection? _ "d" = some c) hk hi hkey hname =>
    adds_as_replaces h hc hk (i := i) hi hkey hname .raising .raising
  obtain ⟨hplaced, -⟩ := hagree ⟨.dedupe, ⟨⟨0⟩, ⟨0⟩, ⟨0⟩⟩, ⟨none, .collection⟩⟩ (.made "m")
    (by decide) rfl (by decide) (by decide) (.inr (by decide))
  obtain ⟨-, changed, hreply, hchanged⟩ := hagree ⟨.dedupe, ⟨⟨0⟩, ⟨0⟩, ⟨0⟩⟩, ⟨none, .collection⟩⟩
    (.made "x") (by decide) rfl (by decide) (by decide) (.inl (by decide))
  have hsame : changed = false := by
    cases hreply
    rfl
  refine ⟨_, _, ⟨.dedupe, ⟨⟨0⟩, ⟨0⟩, ⟨0⟩⟩, ⟨none, .collection⟩⟩, h, by decide, by decide, hplaced,
    by decide, hsame ▸ hreply, ?_⟩
  by_contra hne
  rw [hchanged.mpr hne] at hsame
  cases hsame

end KeyedColumns
