import KeyedColumns.Proofs.Extending
import KeyedColumns.Proofs.InPlace

/-!
# Populating as extending

Populating takes a batch in another order than extending does, and replaces where extending adds. As long
as names point at nothing but their own items' keys the two come to the same: an item under a key in use
may be added before or after those that are appended, and each key's items stay in their order.
-/

namespace KeyedColumns

/-- A name that differs from its item's key is no key in use and no key of the batch. -/
def Batch.NamesApart (column : ItemId → Column) (keys : List String) (is : List ItemId) : Prop :=
  ∀ i ∈ is, (column i).name ≠ (column i).key →
    (column i).name ∉ keys ∧ ∀ j ∈ is, (column j).key ≠ (column i).name

/-! ## Adding among more entries -/

namespace Entry

variable {e : Entry} {yields : Entry → Bool} {es zs : List Entry}

theorem placed_append_of_yields (h : ∃ x ∈ es, yields x) :
    e.placed yields (es ++ zs) = e.placed yields es ++ zs.filter (!yields ·) := by
  induction es with
  | nil => simp at h
  | cons x es ih =>
    by_cases hx : yields x
    · rw [List.cons_append, placed_cons_of_yields hx, placed_cons_of_yields hx, List.filter_append,
        List.cons_append]
    · have hrest : ∃ y ∈ es, yields y := by simpa [hx] using h
      rw [List.cons_append, placed_cons_of_not_yields hx, placed_cons_of_not_yields hx, ih hrest,
        List.cons_append]

end Entry

section

variable {column : ItemId → Column} {es zs : List Entry} {is : List ItemId} {i : ItemId}

theorem added_append_of_held (hk : (column i).key ∈ es.map (·.key))
    (hz : ∀ z ∈ zs, z.key ≠ (column i).key) :
    added column (es ++ zs) i = added column es i ++ zs := by
  obtain ⟨x, hx, hkey⟩ := List.mem_map.mp hk
  rw [added, Entry.placed_append_of_yields ⟨x, hx, by simpa using hkey⟩,
    List.filter_eq_self.mpr fun z hz' => by simpa using hz z hz']
  rfl

theorem mem_keys_added {k : String} (hk : k ∈ (added column es i).map (·.key)) :
    k ∈ es.map (·.key) ∨ k = (column i).key := by
  obtain ⟨e, he, rfl⟩ := List.mem_map.mp hk
  rcases Entry.mem_placed.mp he with rfl | ⟨he, -⟩
  · exact .inr rfl
  · exact .inl (List.mem_map_of_mem he)

end

/-! ## The order of a batch whose names are apart -/

namespace Batch

variable {column : ItemId → Column} {keys : List String} {es : List Entry} {is : List ItemId}
  {i : ItemId}

theorem NamesApart.tail (h : NamesApart column keys (i :: is)) {keys' : List String}
    (hk : ∀ k ∈ keys', k ∈ keys ∨ k = (column i).key) : NamesApart column keys' is := by
  intro j hj hne
  obtain ⟨hkeys, hbatch⟩ := h j (List.mem_cons_of_mem i hj) hne
  rw [List.forall_mem_cons] at hbatch
  refine ⟨fun hmem => ?_, hbatch.2⟩
  rcases hk _ hmem with hmem | heq
  · exact hkeys hmem
  · exact hbatch.1 heq.symm

theorem NamesApart.collides_iff (h : NamesApart column keys (i :: is)) :
    (column i).key ∈ keys ∨ (column i).name ∈ keys ↔ (column i).key ∈ keys := by
  refine ⟨fun hcollides => hcollides.elim id fun hname => ?_, .inl⟩
  by_cases heq : (column i).name = (column i).key
  · exact heq ▸ hname
  · exact absurd hname (h i List.mem_cons_self heq).1

/-- Replacing is adding where names point at nothing else. -/
theorem NamesApart.foldl_replaced (h : NamesApart column (es.map (·.key)) is) :
    is.foldl (replaced column) es = is.foldl (added column) es := by
  induction is generalizing es with
  | nil => rfl
  | cons i rest ih =>
    have hname : (column i).name = (column i).key ∨ ∀ e ∈ es, e.key ≠ (column i).name := by
      by_cases heq : (column i).name = (column i).key
      · exact .inl heq
      · obtain ⟨hkeys, -⟩ := h i List.mem_cons_self heq
        exact .inr fun e he hek => hkeys (List.mem_map.mpr ⟨e, he, hek⟩)
    rw [List.foldl_cons, List.foldl_cons, ← added_eq_replaced hname]
    exact ih (h.tail fun k hk => mem_keys_added hk)

theorem key_notMem_of_free (hi : i ∈ free column keys is) : (column i).key ∉ keys := by
  induction is generalizing keys with
  | nil => cases hi
  | cons j rest ih =>
    unfold free at hi
    split at hi
    · exact ih hi
    · next hnot =>
      rcases List.mem_cons.mp hi with rfl | hi
      · exact fun hk => hnot (.inl hk)
      · exact fun hk => ih hi (List.mem_append_left _ hk)

theorem foldl_added_free (es : List Entry) (is : List ItemId) :
    (free column (es.map (·.key)) is).foldl (added column) es =
      es ++ (free column (es.map (·.key)) is).map (Entry.own column) := by
  induction is generalizing es with
  | nil => exact (List.append_nil es).symm
  | cons i rest ih =>
    unfold free
    split
    · exact ih es
    · next hnot =>
      have hadded : added column es i = es ++ [Entry.own column i] :=
        added_of_new fun e he hek => hnot (.inl (List.mem_map.mpr ⟨e, he, hek⟩))
      have hkeys : (es ++ [Entry.own column i]).map (·.key) = es.map (·.key) ++ [(column i).key] :=
        List.map_append
      rw [List.foldl_cons, hadded, ← hkeys, ih, List.map_cons, List.append_assoc,
        List.singleton_append]

/-- Adding a batch in the order in which it populates is adding it in its own order. -/
theorem NamesApart.foldl_order (h : NamesApart column (es.map (·.key)) is)
    (hn : (es.map (·.key)).Nodup) :
    (order column (es.map (·.key)) is).foldl (added column) es = is.foldl (added column) es := by
  unfold order
  induction is generalizing es with
  | nil => rfl
  | cons i rest ih =>
    have hkeys : (added column es i).map (·.key) = _ := keys_added hn i
    have hrest : NamesApart column ((added column es i).map (·.key)) rest :=
      h.tail fun k hk => mem_keys_added hk
    unfold free late
    simp only [h.collides_iff]
    by_cases hk : (column i).key ∈ es.map (·.key)
    · rw [if_pos hk] at hkeys
      -- What is appended has other keys, so it may as well come after the item.
      have hother : ∀ z ∈ (free column (es.map (·.key)) rest).map (Entry.own column),
          z.key ≠ (column i).key := by
        intro z hz
        obtain ⟨j, hj, rfl⟩ := List.mem_map.mp hz
        exact fun heq : (column j).key = (column i).key =>
          key_notMem_of_free hj (heq ▸ hk)
      have hih := ih hrest (hkeys ▸ hn)
      rw [List.foldl_append, foldl_added_free, hkeys] at hih
      rw [if_pos hk, if_pos hk, List.foldl_append, foldl_added_free, List.foldl_cons,
        added_append_of_held hk hother, List.foldl_cons, hih]
    · rw [if_neg hk] at hkeys
      have hnodup : ((added column es i).map (·.key)).Nodup := by
        rw [hkeys, ← List.concat_eq_append]
        exact hn.concat hk
      rw [if_neg hk, if_neg hk, List.cons_append, List.foldl_cons, List.foldl_cons, ← hkeys]
      exact ih hrest hnodup

theorem NamesApart.of_mem {js : List ItemId} (h : NamesApart column keys is)
    (hmem : ∀ j, j ∈ js ↔ j ∈ is) : NamesApart column keys js := by
  intro i hi hne
  obtain ⟨hkeys, hbatch⟩ := h i ((hmem i).mp hi) hne
  exact ⟨hkeys, fun j hj => hbatch j ((hmem j).mp hj)⟩

end Batch

/-! ## The contents that a batch leaves -/

namespace Contents

variable {column : ItemId → Column} {c : Contents} {is : List ItemId}

theorem Deduplicated.entries_each_put (hc : c.Deduplicated) (self : Reference)
    (hk : ∀ i ∈ is, (column i).key ≠ "") :
    (Dedupe.each (Dedupe.put column self) c is).contents.entries =
      is.foldl (added column) c.entries := by
  induction is generalizing c with
  | nil => rfl
  | cons i rest ih =>
    rw [List.forall_mem_cons] at hk
    rw [List.foldl_cons, ← hc.entries_put self]
    exact ih (hc.put hk.1) hk.2

theorem Faithful.each_put (hc : c.Faithful column) (self : Reference)
    (hk : ∀ i ∈ is, (column i).key ≠ "") :
    (Dedupe.each (Dedupe.put column self) c is).contents.Faithful column :=
  hc.changes (Dedupe.each_changes (fun c i hi => Dedupe.put_changes c trivial (hk i hi)) c)

theorem Deduplicated.inPlace_iff_held (hc : c.Deduplicated)
    (h : Batch.NamesApart column c.keys is) {i : ItemId} (hi : i ∈ is) :
    c.InPlace column i ↔ Entry.own column i ∈ c.entries := by
  refine ⟨InPlace.held, fun hheld => ⟨hheld, fun e he hname => ?_⟩⟩
  by_cases heq : (column i).name = (column i).key
  · rw [hc.eq_of_key he hheld (hname.trans heq)]
    rfl
  · exact absurd (List.mem_map.mpr ⟨e, he, hname⟩) (h i hi heq).1

theorem Faithful.populated_eq_extended (hc : c.Faithful column) {d : Contents}
    (hd : d.Faithful column)
    (hentries : d.entries = (Batch.order column c.keys is).foldl (replaced column) c.entries)
    (self : Reference) (hk : ∀ i ∈ is, (column i).key ≠ "")
    (h : Batch.NamesApart column c.keys is) :
    d = (Dedupe.each (Dedupe.put column self) c is).contents := by
  refine hd.eq_of_entries (hc.each_put self hk) ?_
  have horder : Batch.NamesApart column c.keys (Batch.order column c.keys is) :=
    h.of_mem fun j => (Batch.perm_order c.keys is).mem_iff
  rw [hentries, hc.entries_each_put self hk, ← h.foldl_order hc.keys_nodup]
  exact horder.foldl_replaced

end Contents

/-! ## Populating and extending -/

variable {config : Log.Config} {r : Registry} {slot : String} {c : Collection}
  {given : List (String × Option ItemId)}

theorem namesApart_of_given {column : ItemId → Column} {keys : List String}
    (hgiven : ∀ g ∈ given, ¬ Offends column .dedupe (g.2, some g.1))
    (hnames : ∀ i ∈ given.filterMap (·.2), (column i).name ≠ (column i).key →
      (column i).name ∉ keys ∧ (column i).name ∉ given.map (·.1)) :
    Batch.NamesApart column keys (given.filterMap (·.2)) := by
  intro i hi hne
  obtain ⟨hkeys, hbatch⟩ := hnames i hi hne
  refine ⟨hkeys, fun j hj heq => hbatch ?_⟩
  obtain ⟨⟨key, _⟩, hg, rfl⟩ := List.mem_filterMap.mp hj
  rw [← heq, ← own_key_of_valid hgiven hg]
  exact List.mem_map_of_mem hg

/--
As long as members of deduplicating collections keep their keys, populating by a valid batch leaves what
extending by its items leaves, if no name in it that differs from its item's key is a key in use or a key
of the batch. Both say alike whether anything changed, whichever keys and items the batch repeats.
-/
theorem populates_as_extends (h : Run Steady (.empty config) r) (hc : r.collection? slot = some c)
    (hk : c.kind = .dedupe) (hi : r.knows (given.filterMap (·.2)))
    (hgiven : ∀ g ∈ given, ¬ Offends r.catalogue.column .dedupe (g.2, some g.1))
    (hnames : ∀ i ∈ given.filterMap (·.2), (r.catalogue.column i).name ≠ (r.catalogue.column i).key →
      (r.catalogue.column i).name ∉ (r.contents c).keys ∧
        (r.catalogue.column i).name ∉ given.map (·.1)) (populating extending : Mode) :
    (r.act (.call slot (.populate given) populating)).1 =
      (r.act (.call slot (.extend (given.map (·.2))) extending)).1 ∧
    ∃ changed, r.outcome (.call slot (.populate given) populating) =
        .reply (populating.success true (.flag changed)) ∧
      r.outcome (.call slot (.extend (given.map (·.2))) extending) =
        .reply (extending.success (!given.isEmpty) (.flag changed)) := by
  have hfaithful := h.faithful hc hk
  have hkey : ∀ i ∈ given.filterMap (·.2), (r.catalogue.column i).key ≠ "" :=
    (Dedupe.checkAll_ok (Dedupe.checkEntries_of_valid hgiven)).2
  have hapart := namesApart_of_given hgiven hnames
  have hfor := Call.isFor_of_dedupe (.populate given) hk
  have hsettled := h.settled_call hc hk (.populate given) populating
  obtain ⟨d, changed, hd, hvalue, hentries⟩ := r.attempt_populate slot hk hfaithful hgiven
  rw [Registry.contents_act_call_ok h.reachable hc hfor hi hd] at hsettled
  have hitems := Registry.map_items_of_valid hgiven
  have hempty : given.isEmpty = (given.filterMap (·.2)).isEmpty := by
    simpa using congrArg List.isEmpty hitems
  rw [hitems, hempty]
  refine ⟨?_, changed, ?_, ?_⟩
  · rw [Registry.act_call_ok hc hfor hi hd, Registry.act_extend hc hk hi hkey extending]
    exact congrArg _ (hfaithful.populated_eq_extended (hsettled.faithful rfl) hentries (.slot slot)
      hkey hapart)
  · rw [Registry.outcome_call_ok hc hfor hi hd, hvalue]
  · have hiff : changed = false ↔ (Dedupe.each (Dedupe.put r.catalogue.column (.slot slot))
        (r.contents c) (given.filterMap (·.2))).value = false := by
      rw [(Registry.populate_flag hk hfaithful hgiven hd hvalue).1, hfaithful.each_unchanged_iff]
      exact forall₂_congr fun i hi => (hfaithful.inPlace_iff_held hapart hi).trans
        hfaithful.find?_iff.symm
    have hflag : changed = _ := Bool.eq_iff_iff.mpr (by simpa using not_congr hiff)
    rw [Registry.outcome_extend hc hk hi hkey, hflag]

/-- A batch with a new key for which it has two items, one of them twice, around an item that takes the
place of another and one that goes to the end. -/
theorem populates_as_extends_of_repeated : ∃ config r c r', Run Steady (.empty config) r ∧
    r.collection? "d" = some c ∧
    (r.contents c).entries = [⟨"a", .made "a"⟩, ⟨"b", .made "b"⟩] ∧
    (r.act (.call "d" (.populate [("z", some (.made "p")), ("a", some (.made "q")),
      ("z", some (.made "m")), ("y", some (.made "s")), ("z", some (.made "p"))]) .raising)).1 = r' ∧
    (r.act (.call "d" (.extend [some (.made "p"), some (.made "q"), some (.made "m"),
      some (.made "s"), some (.made "p")]) .raising)).1 = r' ∧
    (r'.contents c).entries =
      [⟨"a", .made "q"⟩, ⟨"b", .made "b"⟩, ⟨"z", .made "p"⟩, ⟨"y", .made "s"⟩] ∧
    ∃ changed, r.outcome (.call "d" (.populate [("z", some (.made "p")), ("a", some (.made "q")),
        ("z", some (.made "m")), ("y", some (.made "s")), ("z", some (.made "p"))]) .raising) =
          .reply (.returned (.flag changed)) ∧
      r.outcome (.call "d" (.extend [some (.made "p"), some (.made "q"), some (.made "m"),
        some (.made "s"), some (.made "p")]) .raising) = .reply (.returned (.flag changed)) := by
  have h : Run Steady (.empty (.ofDefault .info false)) _ := Run.refl
    |>.act (.makeItem "a" (.named "a")) trivial
    |>.act (.makeItem "b" (.named "b")) trivial
    |>.act (.makeItem "p" (.named "z")) trivial
    |>.act (.makeItem "q" (.named "a")) trivial
    |>.act (.makeItem "m" ⟨"free", "z"⟩) trivial
    |>.act (.makeItem "s" (.named "y")) trivial
    |>.act (.create "d" .dedupe [("a", some (.made "a")), ("b", some (.made "b"))] none .raising)
      trivial
  have hagree := fun c (given : List (String × Option ItemId))
      (hc : Registry.collection? _ "d" = some c) hk (hi : Registry.knows _ (given.filterMap (·.2)))
      hgiven hnames => populates_as_extends h hc hk hi hgiven hnames .raising .raising
  obtain ⟨hsame, hflag⟩ := hagree ⟨.dedupe, ⟨⟨0⟩, ⟨0⟩, ⟨0⟩⟩, ⟨none, .collection⟩⟩
    [("z", some (.made "p")), ("a", some (.made "q")), ("z", some (.made "m")),
      ("y", some (.made "s")), ("z", some (.made "p"))]
    (by decide) rfl (by decide) (by
      simp only [List.forall_mem_cons, List.not_mem_nil, false_imp_iff, implies_true, and_true]
      and_intros <;> exact not_offends (by decide) (by decide)) (by decide)
  exact ⟨_, _, ⟨.dedupe, ⟨⟨0⟩, ⟨0⟩, ⟨0⟩⟩, ⟨none, .collection⟩⟩, _, h, by decide, by decide, rfl,
    hsame.symm, by decide, hflag⟩

end KeyedColumns
