import KeyedColumns.Proofs.Populating
import KeyedColumns.Proofs.Replacing

/-!
# Items that are in place

An item is in place if it stands under its key and nothing else stands under its name. Replacing puts
an item in place, and one that is in place changes nothing when it replaces. So replacing again comes to
nothing, and populating does if the whole batch is in place.
-/

namespace KeyedColumns

/-! ## Placing what is there -/

namespace Entry

variable {e : Entry} {yields : Entry → Bool} {es : List Entry}

theorem placed_eq_self_iff (hn : es.Nodup) (he : yields e) :
    e.placed yields es = es ↔ e ∈ es ∧ ∀ x ∈ es, yields x → x = e := by
  constructor
  · intro h
    have hmem : ∀ x, x ∈ es ↔ x = e ∨ x ∈ es ∧ ¬ yields x := by
      intro x
      rw [← mem_placed, h]
    exact ⟨(hmem e).mpr (.inl rfl), fun x hx hy => ((hmem x).mp hx).resolve_right fun h => h.2 hy⟩
  · rintro ⟨hmem, honly⟩
    induction es with
    | nil => simp at hmem
    | cons x es ih =>
      rw [List.nodup_cons] at hn
      rw [List.forall_mem_cons] at honly
      by_cases hx : yields x
      · obtain rfl : x = e := honly.1 hx
        have hrest : ∀ y ∈ es, ¬ yields y := fun y hy hyy => hn.1 (honly.2 y hy hyy ▸ hy)
        rw [placed_cons_of_yields hx, List.filter_eq_self.mpr fun y hy => by simpa using hrest y hy]
      · have hrest : e ∈ es := (List.mem_cons.mp hmem).resolve_left fun h => hx (h ▸ he)
        rw [placed_cons_of_not_yields hx, ih hn.2 hrest honly.2]

end Entry

namespace Contents

/-- An item stands under its key, and nothing but it under its name. -/
structure InPlace (column : ItemId → Column) (c : Contents) (i : ItemId) : Prop where
  held : Entry.own column i ∈ c.entries
  alone : ∀ e ∈ c.entries, e.key = (column i).name → e.item = i

variable {column : ItemId → Column} {self : Reference} {c : Contents} {i : ItemId}
  {is : List ItemId}

theorem Faithful.eq_own (hc : c.Faithful column) {e : Entry} (he : e ∈ c.entries)
    (hi : e.item = i) : e = Entry.own column i := by
  rw [Entry.own, ← hi, ← hc.own_key e he]

theorem Faithful.replaced_eq_self_iff (hc : c.Faithful column) :
    replaced column c.entries i = c.entries ↔ c.InPlace column i := by
  rw [replaced, Entry.placed_eq_self_iff hc.keys_nodup.of_map (Column.meets_own column i)]
  constructor
  · rintro ⟨hheld, honly⟩
    refine ⟨hheld, fun e he hname => ?_⟩
    rw [honly e he (by simp [Column.meets, hname]), Entry.own]
  · rintro ⟨hheld, halone⟩
    refine ⟨hheld, fun e he hmeets => ?_⟩
    simp only [Column.meets, Bool.or_eq_true, decide_eq_true_eq] at hmeets
    rcases hmeets with hkey | hname
    · exact hc.eq_of_key he hheld hkey
    · exact hc.eq_own he (halone e he hname)

theorem contents_supplant_of_unchanged (h : (Dedupe.supplant column self c i).value = false) :
    (Dedupe.supplant column self c i).contents = c := by
  unfold Dedupe.supplant at *
  simp only at *
  split at h
  · next heq => rw [if_pos heq]
  · cases h

theorem Faithful.supplant_unchanged_iff (hc : c.Faithful column) :
    (Dedupe.supplant column self c i).value = false ↔ c.InPlace column i := by
  rw [← hc.replaced_eq_self_iff]
  unfold Dedupe.supplant
  simp only [hc.supplanted_eq i]
  split <;> simp_all

theorem Faithful.inPlace_supplant (hc : c.Faithful column) :
    (Dedupe.supplant column self c i).contents.InPlace column i := by
  have hmem : ∀ e, e ∈ (Dedupe.supplant column self c i).contents.entries ↔
      e = Entry.own column i ∨ e ∈ c.entries ∧ ¬ (column i).meets e := by
    intro e
    rw [hc.entries_supplant, replaced, Entry.mem_placed]
  refine ⟨(hmem _).mpr (.inl rfl), fun e he hname => ?_⟩
  rcases (hmem e).mp he with rfl | ⟨-, hnot⟩
  · rfl
  · exact absurd (by simp [Column.meets, hname]) hnot

/-- Replacing by an item again leaves what replacing by it left. -/
theorem Faithful.supplant_supplant (hc : c.Faithful column) (hk : (column i).key ≠ "") :
    (Dedupe.supplant column self (Dedupe.supplant column self c i).contents i).contents =
      (Dedupe.supplant column self c i).contents :=
  contents_supplant_of_unchanged ((hc.supplant hk).supplant_unchanged_iff.mpr hc.inPlace_supplant)

end Contents

/-! ## Replacing again -/

variable {config : Log.Config} {r : Registry} {slot : String} {c : Collection}

theorem Registry.item_of_replace_ok {item : Option ItemId} {d : Done Result} (hk : c.kind = .dedupe)
    (hd : r.attempt slot c (.replace item) = .ok d) :
    ∃ i, item = some i ∧ (r.catalogue.column i).key ≠ "" := by
  unfold attempt at hd
  rw [hk] at hd
  simp only [Call.attempt, Dedupe.tryReplace] at hd
  split at hd
  · cases hd
  · next i hi => exact ⟨i, Dedupe.check_ok hi⟩

theorem Registry.replace_again (h : Run Steady (.empty config) r) (hc : r.collection? slot = some c)
    (hk : c.kind = .dedupe) {i : ItemId} (hi : r.catalogue.knows i)
    (hkey : (r.catalogue.column i).key ≠ "") (first second : Mode) :
    ((r.act (.call slot (.replace (some i)) first)).1.act
      (.call slot (.replace (some i)) second)).1 =
        (r.act (.call slot (.replace (some i)) first)).1 ∧
    (first.given.isSome = second.given.isSome →
      (r.act (.call slot (.replace (some i)) first)).1.outcome
        (.call slot (.replace (some i)) second) = r.outcome (.call slot (.replace (some i)) first)) ∧
    ((r.act (.call slot (.replace (some i)) first)).1.contents c).InPlace r.catalogue.column i := by
  have hfor := Call.isFor_of_dedupe (.replace (some i)) hk
  have hknown := knows_singleton hi
  have hfaithful := h.faithful hc hk
  obtain ⟨d, hd, hvalue, hcontents⟩ := r.attempt_replace slot hk hkey
  have hheld : (r.write c d.contents).collection? slot = some c := hc
  have hseen : (r.write c d.contents).contents c = d.contents :=
    (h.reachable.contents_write hc hc d.contents).trans (if_pos rfl)
  obtain ⟨e, he, hvalue', hagain⟩ := (r.write c d.contents).attempt_replace slot hk hkey
  have hsame : e.contents = d.contents := by
    rw [hagain, hseen, hcontents]
    exact hfaithful.supplant_supplant hkey
  rw [act_call_ok hc hfor hknown hd, outcome_call_ok hc hfor hknown hd,
    act_call_ok hheld hfor hknown he, outcome_call_ok hheld hfor hknown he, hseen]
  refine ⟨?_, fun halike => ?_, ?_⟩
  · rw [hsame, write_write]
  · rw [hvalue, hvalue', Mode.success_congr halike]
  · rw [hcontents]
    exact hfaithful.inPlace_supplant

/--
As long as members of deduplicating collections keep their keys, replacing by an item twice, be it a
valid item or not, leaves what replacing by it once leaves, to all who see it. The second caller is told
what the first was told if it learns of failures in the same way, whatever its code said before. A valid
item is in place after the first time.
-/
theorem replaces_once (h : Run Steady (.empty config) r) (hc : r.collection? slot = some c)
    (hk : c.kind = .dedupe) (item : Option ItemId) (first second : Mode) :
    ((r.act (.call slot (.replace item) first)).1.act (.call slot (.replace item) second)).1 =
      (r.act (.call slot (.replace item) first)).1 ∧
    (first.given.isSome = second.given.isSome →
      (r.act (.call slot (.replace item) first)).1.outcome (.call slot (.replace item) second) =
        r.outcome (.call slot (.replace item) first)) ∧
    ∀ i, item = some i → r.catalogue.knows i → (r.catalogue.column i).key ≠ "" →
      ((r.act (.call slot (.replace item) first)).1.contents c).InPlace r.catalogue.column i := by
  by_cases hvalid : ∃ i, item = some i ∧ r.catalogue.knows i ∧ (r.catalogue.column i).key ≠ ""
  · obtain ⟨i, rfl, hi, hkey⟩ := hvalid
    obtain ⟨hsame, htold, hplace⟩ := Registry.replace_again h hc hk hi hkey first second
    refine ⟨hsame, htold, ?_⟩
    rintro j hj - -
    cases hj
    exact hplace
  · have hrefused : ¬ r.knows (Call.replace item).items ∨
        ∃ f, r.attempt slot c (.replace item) = .error f := by
      by_cases hi : r.knows (Call.replace item).items
      · cases hd : r.attempt slot c (.replace item) with
        | error f => exact .inr ⟨f, rfl⟩
        | ok d =>
          obtain ⟨i, rfl, hkey⟩ := Registry.item_of_replace_ok hk hd
          exact absurd ⟨i, rfl, Registry.knows_of_knows hi i (by simp [Call.items]), hkey⟩ hvalid
      · exact .inl hi
    obtain ⟨hsame, htold⟩ := Registry.refuse_again hc (Call.isFor_of_dedupe _ hk) hrefused first second
    exact ⟨hsame, htold, fun i hitem hi hkey => absurd ⟨i, hitem, hi, hkey⟩ hvalid⟩

/-- An item that comes in the place of one entry by its name and of a later one by its key, as a view
shows it, with a code that says something else before each time; and no item at all. -/
theorem replaces_once_of_both : ∃ config r c v r', Run Steady (.empty config) r ∧
    r.collection? "d" = some c ∧ r.collection? "v" = some v ∧ v.handle = c.handle ∧
    (r.contents c).entries = [⟨"a", .made "a"⟩, ⟨"x", .made "x"⟩, ⟨"b", .made "b"⟩] ∧
    (r.act (.call "d" (.replace (some (.made "n"))) (.code (.failed .nullItem)))).1 = r' ∧
    (r'.contents v).entries = [⟨"b", .made "n"⟩, ⟨"x", .made "x"⟩] ∧
    (r'.act (.call "d" (.replace (some (.made "n"))) (.code .success))).1 = r' ∧
    r'.outcome (.call "d" (.replace (some (.made "n"))) (.code .success)) =
      .reply (.coded (.flag true) .success) ∧
    (r'.contents c).InPlace r.catalogue.column (.made "n") ∧
    (r.act (.call "d" (.replace none) .raising)).1.outcome (.call "d" (.replace none) .raising) =
      .reply (.raised ⟨.failed .nullItem, "replace"⟩) := by
  have h : Run Steady (.empty (.ofDefault .info false)) _ := Run.refl
    |>.act (.makeItem "a" (.named "a")) trivial
    |>.act (.makeItem "b" (.named "b")) trivial
    |>.act (.makeItem "x" (.named "x")) trivial
    |>.act (.makeItem "n" ⟨"a", "b"⟩) trivial
    |>.act (.create "d" .dedupe [("a", some (.made "a")), ("x", some (.made "x")),
      ("b", some (.made "b"))] none .raising) trivial
    |>.act (.freeze "v" "d") trivial
  have honce := fun c (hc : Registry.collection? _ "d" = some c) hk => replaces_once h hc hk
  obtain ⟨hagain, htold, hplace⟩ := honce ⟨.dedupe, ⟨⟨0⟩, ⟨0⟩, ⟨0⟩⟩, ⟨none, .collection⟩⟩
    (by decide) rfl (some (.made "n")) (.code (.failed .nullItem)) (.code .success)
  obtain ⟨-, htold', -⟩ := honce ⟨.dedupe, ⟨⟨0⟩, ⟨0⟩, ⟨0⟩⟩, ⟨none, .collection⟩⟩
    (by decide) rfl none .raising .raising
  exact ⟨_, _, ⟨.dedupe, ⟨⟨0⟩, ⟨0⟩, ⟨0⟩⟩, ⟨none, .collection⟩⟩,
    ⟨.view, ⟨⟨0⟩, ⟨0⟩, ⟨0⟩⟩, ⟨none, .collection⟩⟩, _, h, by decide, by decide, rfl,
    by decide, rfl, by decide, hagain, (htold rfl).trans rfl,
    hplace _ rfl (by decide) (by decide), (htold' rfl).trans rfl⟩

/-! ## Populating by what is in place -/

theorem Batch.free_eq_nil {column : ItemId → Column} {keys : List String} {is : List ItemId}
    (h : ∀ i ∈ is, (column i).key ∈ keys) : free column keys is = [] := by
  induction is with
  | nil => rfl
  | cons i rest ih =>
    rw [List.forall_mem_cons] at h
    rw [free, if_pos (.inl h.1)]
    exact ih h.2

namespace Contents

variable {column : ItemId → Column} {self : Reference} {c : Contents} {is : List ItemId}

theorem InPlace.mem_keys {i : ItemId} (h : c.InPlace column i) : (column i).key ∈ c.keys :=
  List.mem_map.mpr ⟨_, h.held, rfl⟩

theorem Faithful.each_supplant_unchanged_iff (hc : c.Faithful column) :
    (Dedupe.each (Dedupe.supplant column self) c is).value = false ↔
      ∀ i ∈ is, c.InPlace column i := by
  rw [Dedupe.each_unchanged_iff fun i _ hi => contents_supplant_of_unchanged hi]
  exact forall₂_congr fun i _ => hc.supplant_unchanged_iff

theorem Faithful.contents_each_of_inPlace (hc : c.Faithful column)
    (h : ∀ i ∈ is, c.InPlace column i) :
    (Dedupe.each (Dedupe.supplant column self) c is).contents = c :=
  Dedupe.contents_each_of_unchanged fun i hi =>
    contents_supplant_of_unchanged (hc.supplant_unchanged_iff.mpr (h i hi))

theorem Faithful.appendFree_of_free_nil (hc : c.Faithful column)
    (hk : ∀ i ∈ is, (column i).key ≠ "") (hfree : Batch.free column c.keys is = []) :
    (Dedupe.appendFree column c is).1 = c ∧ (Dedupe.appendFree column c is).2.Perm is := by
  have happended : (Dedupe.appendFree column c is).1.Faithful column :=
    hc.changes (Dedupe.appendFree_changes c fun i hi => ⟨trivial, hk i hi⟩)
  obtain ⟨hentries, hlate⟩ : (Dedupe.appendFree column c is).1.entries = _ ∧
      (Dedupe.appendFree column c is).2 = _ := hc.appendFree_eq
  have hperm : (Batch.order column c.keys is).Perm is := Batch.perm_order c.keys is
  rw [hfree] at hentries
  rw [Batch.order, hfree, List.nil_append, ← hlate] at hperm
  exact ⟨happended.eq_of_entries hc hentries, hperm⟩

theorem Faithful.populate_unchanged_iff (hc : c.Faithful column) (self : Reference)
    (hk : ∀ i ∈ is, (column i).key ≠ "") :
    (decide ((Dedupe.appendFree column c is).2.length < is.length) ||
      (Dedupe.each (Dedupe.supplant column self) (Dedupe.appendFree column c is).1
        (Dedupe.appendFree column c is).2).value) = false ↔ ∀ i ∈ is, c.InPlace column i := by
  by_cases hfree : Batch.free column c.keys is = []
  · obtain ⟨hsame, hperm⟩ := hc.appendFree_of_free_nil hk hfree
    rw [hsame, hperm.length_eq, decide_eq_false (Nat.lt_irrefl _), Bool.false_or,
      hc.each_supplant_unchanged_iff]
    exact forall_congr' fun i => imp_congr_left hperm.mem_iff
  · -- An item that is appended is a change, and was not under its key before.
    have hperm : (Batch.order column c.keys is).Perm is := Batch.perm_order c.keys is
    have hlt : (Dedupe.appendFree column c is).2.length < is.length := by
      rw [hc.appendFree_eq.2, ← hperm.length_eq, Batch.order, List.length_append]
      exact Nat.lt_add_of_pos_left (List.length_pos_iff.mpr hfree)
    simp only [hlt, decide_true, Bool.true_or, Bool.true_eq_false, false_iff]
    exact fun h => hfree (Batch.free_eq_nil fun i hi => (h i hi).mem_keys)

theorem Faithful.contents_populate_of_inPlace (hc : c.Faithful column)
    (hk : ∀ i ∈ is, (column i).key ≠ "") (h : ∀ i ∈ is, c.InPlace column i) :
    (Dedupe.each (Dedupe.supplant column self) (Dedupe.appendFree column c is).1
      (Dedupe.appendFree column c is).2).contents = c := by
  obtain ⟨hsame, hperm⟩ :=
    hc.appendFree_of_free_nil hk (Batch.free_eq_nil fun i hi => (h i hi).mem_keys)
  rw [hsame]
  exact hc.contents_each_of_inPlace fun i hi => h i (hperm.mem_iff.mp hi)

end Contents

section

variable {given : List (String × Option ItemId)} {d : Done Result}

theorem Registry.populate_flag (hk : c.kind = .dedupe)
    (hfaithful : (r.contents c).Faithful r.catalogue.column)
    (hgiven : ∀ g ∈ given, ¬ Offends r.catalogue.column .dedupe (g.2, some g.1))
    (hd : r.attempt slot c (.populate given) = .ok d) {changed : Bool} (hv : d.value = .flag changed) :
    (changed = false ↔
      ∀ i ∈ given.filterMap (·.2), (r.contents c).InPlace r.catalogue.column i) ∧
    (changed = false → d.contents = r.contents c) := by
  have hchecked := Dedupe.checkEntries_of_valid hgiven
  have hkey : ∀ i ∈ given.filterMap (·.2), (r.catalogue.column i).key ≠ "" :=
    (Dedupe.checkAll_ok hchecked).2
  unfold attempt at hd
  rw [hk] at hd
  simp only [Call.attempt, Dedupe.tryPopulate, hchecked] at hd
  cases hd
  cases hv
  have hiff := hfaithful.populate_unchanged_iff (.slot slot) hkey
  exact ⟨hiff, fun h => hfaithful.contents_populate_of_inPlace hkey (hiff.mp h)⟩

theorem own_key_of_valid {column : ItemId → Column}
    (hgiven : ∀ g ∈ given, ¬ Offends column .dedupe (g.2, some g.1)) {key : String} {i : ItemId}
    (hg : (key, some i) ∈ given) : key = (column i).key := by
  by_contra hne
  exact hgiven _ hg (.mismatched i key hne)

theorem inPlace_iff_of_valid {column : ItemId → Column} {k : Contents}
    (hgiven : ∀ g ∈ given, ¬ Offends column .dedupe (g.2, some g.1)) :
    (∀ i ∈ given.filterMap (·.2), k.InPlace column i) ↔
      ∀ key i, (key, some i) ∈ given →
        ⟨key, i⟩ ∈ k.entries ∧ ∀ e ∈ k.entries, e.key = (column i).name → e.item = i := by
  constructor
  · intro h key i hg
    obtain ⟨hheld, halone⟩ := h i (List.mem_filterMap.mpr ⟨_, hg, rfl⟩)
    rw [own_key_of_valid hgiven hg]
    exact ⟨hheld, halone⟩
  · intro h i hi
    obtain ⟨⟨key, _⟩, hg, rfl⟩ := List.mem_filterMap.mp hi
    obtain ⟨hheld, halone⟩ := h key i hg
    rw [own_key_of_valid hgiven hg] at hheld
    exact ⟨hheld, halone⟩

end

/--
As long as members of deduplicating collections keep their keys, populating by a valid batch says that
nothing changed if and only if every item of the batch stands under its key already and nothing else
stands under its name; and then nothing did change.
-/
theorem populates_nothing_iff (h : Run Steady (.empty config) r) (hc : r.collection? slot = some c)
    (hk : c.kind = .dedupe) {given : List (String × Option ItemId)}
    (hi : r.knows (given.filterMap (·.2)))
    (hgiven : ∀ g ∈ given, ¬ Offends r.catalogue.column .dedupe (g.2, some g.1)) (mode : Mode) :
    ∃ changed, r.outcome (.call slot (.populate given) mode) =
        .reply (mode.success true (.flag changed)) ∧
      (changed = false ↔ ∀ key i, (key, some i) ∈ given →
        ⟨key, i⟩ ∈ (r.contents c).entries ∧
          ∀ e ∈ (r.contents c).entries, e.key = (r.catalogue.column i).name → e.item = i) ∧
      (changed = false → (r.act (.call slot (.populate given) mode)).1 = r) := by
  have hfor := Call.isFor_of_dedupe (.populate given) hk
  have hfaithful := h.faithful hc hk
  obtain ⟨d, changed, hd, hvalue, -⟩ := r.attempt_populate slot hk hfaithful hgiven
  obtain ⟨hiff, hsame⟩ := Registry.populate_flag hk hfaithful hgiven hd hvalue
  refine ⟨changed, ?_, hiff.trans (inPlace_iff_of_valid hgiven), fun hchanged => ?_⟩
  · rw [Registry.outcome_call_ok hc hfor hi hd, hvalue]
  · rw [Registry.act_call_ok hc hfor hi hd, hsame hchanged, Registry.write_contents]

/-- A batch that is in place, with one item twice; and one of which the last item stands under its key,
but has the key of another entry as its name. -/
theorem populates_nothing_iff_of_name : ∃ config r c, Run Steady (.empty config) r ∧
    r.collection? "d" = some c ∧
    (r.contents c).entries = [⟨"a", .made "a"⟩, ⟨"k", .made "k"⟩, ⟨"n", .made "n"⟩] ∧
    r.outcome (.call "d" (.populate [("k", some (.made "k")), ("a", some (.made "a")),
      ("k", some (.made "k"))]) .raising) = .reply (.returned (.flag false)) ∧
    (r.act (.call "d" (.populate [("k", some (.made "k")), ("a", some (.made "a")),
      ("k", some (.made "k"))]) .raising)).1 = r ∧
    r.outcome (.call "d" (.populate [("k", some (.made "k")), ("n", some (.made "n"))])
      .raising) = .reply (.returned (.flag true)) := by
  have h : Run Steady (.empty (.ofDefault .info false)) _ := Run.refl
    |>.act (.makeItem "a" (.named "a")) trivial
    |>.act (.makeItem "k" ⟨"free", "k"⟩) trivial
    |>.act (.makeItem "n" ⟨"a", "n"⟩) trivial
    |>.act (.create "d" .dedupe [("a", some (.made "a")), ("k", some (.made "k")),
      ("n", some (.made "n"))] none .raising) trivial
  have hpopulates := fun c (given : List (String × Option ItemId))
      (hc : Registry.collection? _ "d" = some c) hk (hi : Registry.knows _ (given.filterMap (·.2)))
      hgiven => populates_nothing_iff h hc hk hi hgiven .raising
  obtain ⟨changed, hreply, hiff, hsame⟩ := hpopulates
    ⟨.dedupe, ⟨⟨0⟩, ⟨0⟩, ⟨0⟩⟩, ⟨none, .collection⟩⟩
    [("k", some (.made "k")), ("a", some (.made "a")), ("k", some (.made "k"))]
    (by decide) rfl (by decide) (by
      simp only [List.forall_mem_cons, List.not_mem_nil, false_imp_iff, implies_true, and_true]
      and_intros <;> exact not_offends (by decide) (by decide))
  obtain ⟨changed', hreply', hiff', -⟩ := hpopulates
    ⟨.dedupe, ⟨⟨0⟩, ⟨0⟩, ⟨0⟩⟩, ⟨none, .collection⟩⟩
    [("k", some (.made "k")), ("n", some (.made "n"))]
    (by decide) rfl (by decide) (by
      simp only [List.forall_mem_cons, List.not_mem_nil, false_imp_iff, implies_true, and_true]
      and_intros <;> exact not_offends (by decide) (by decide))
  obtain rfl : changed = false := hiff.mpr fun key i hg => by
    simp only [List.mem_cons, Prod.mk.injEq, Option.some.injEq, List.not_mem_nil, or_false] at hg
    rcases hg with ⟨rfl, rfl⟩ | ⟨rfl, rfl⟩ | ⟨rfl, rfl⟩ <;> exact ⟨by decide, by decide⟩
  obtain rfl : changed' = true := by
    rw [← Bool.not_eq_false, hiff']
    intro hall
    exact absurd ((hall "n" (.made "n") (by decide)).2 ⟨"a", .made "a"⟩ (by decide) (by decide))
      (by decide)
  exact ⟨_, _, ⟨.dedupe, ⟨⟨0⟩, ⟨0⟩, ⟨0⟩⟩, ⟨none, .collection⟩⟩, h, by decide, by decide, hreply,
    hsame rfl, hreply'⟩

end KeyedColumns
