import KeyedColumns.Proofs.Placing
import KeyedColumns.Proofs.Steadiness

/-!
# Populating

A batch is applied in two parts: first the items that collide with nothing when they are reached, then
the others, each of which takes the place of what stands under its key and its name. What is left is
said by the order in which the items were applied: each holds against all that came before it.
-/

namespace KeyedColumns

/-! ## The order of a batch -/

namespace Batch

variable (column : ItemId → Column)

/-- The items that collide with nothing when they are reached. Each of them takes its key into use. -/
def free : List String → List ItemId → List ItemId
  | _, [] => []
  | keys, i :: rest =>
    if (column i).key ∈ keys ∨ (column i).name ∈ keys then free keys rest
    else i :: free (keys ++ [(column i).key]) rest

/-- The items that collide with something when they are reached. -/
def late : List String → List ItemId → List ItemId
  | _, [] => []
  | keys, i :: rest =>
    if (column i).key ∈ keys ∨ (column i).name ∈ keys then i :: late keys rest
    else late (keys ++ [(column i).key]) rest

/-- The order in which the items of a batch are applied, where some keys are in use. -/
def order (keys : List String) (is : List ItemId) : List ItemId :=
  free column keys is ++ late column keys is

variable {column}

theorem perm_order (keys : List String) (is : List ItemId) : (order column keys is).Perm is := by
  unfold order
  induction is generalizing keys with
  | nil => rfl
  | cons i rest ih =>
    unfold free late
    split
    · exact List.perm_middle.trans ((ih keys).cons i)
    · exact (ih _).cons i

end Batch

/-- What becomes of contents that a batch populates. -/
structure Populated (cat : Catalogue) (batch : List ItemId) (c d : Contents) : Prop where
  applied : (Batch.order cat.column c.keys batch).Perm batch
  old : ∀ j ∈ c.members, j ∉ batch → (j ∈ d.members ↔ ∀ i ∈ batch,
    (cat.column i).key ≠ (cat.column j).key ∧ (cat.column i).name ≠ (cat.column j).key)
  new : ∀ j before after, Batch.order cat.column c.keys batch = before ++ j :: after → j ∉ after →
    (j ∈ d.members ↔ ∀ i ∈ after,
      (cat.column i).key ≠ (cat.column j).key ∧ (cat.column i).name ≠ (cat.column j).key)
  only : ∀ j ∈ d.members, j ∈ c.members ∨ j ∈ batch
  order : d.members.filter (· ∉ batch) = c.members.filter fun j => j ∉ batch ∧ j ∈ d.members
  exact : d.Exact cat

/-! ## Replacing by many in turn -/

section

variable {column : ItemId → Column} {es : List Entry} {is : List ItemId} {i j : ItemId}

theorem own_inj : Entry.own column i = Entry.own column j ↔ i = j :=
  ⟨fun h => congrArg Entry.item h, fun h => congrArg _ h⟩

theorem not_meets_own : ¬ (column i).meets (Entry.own column j) ↔
    (column i).key ≠ (column j).key ∧ (column i).name ≠ (column j).key := by
  simp only [Column.meets, Bool.or_eq_true, decide_eq_true_eq, not_or]
  exact and_congr ne_comm ne_comm

theorem own_mem_replaced : Entry.own column j ∈ replaced column es i ↔
    j = i ∨ Entry.own column j ∈ es ∧ ¬ (column i).meets (Entry.own column j) := by
  rw [replaced, Entry.mem_placed, own_inj]

theorem mem_or_mem_of_foldl (h : Entry.own column j ∈ is.foldl (replaced column) es) :
    Entry.own column j ∈ es ∨ j ∈ is := by
  induction is generalizing es with
  | nil => exact .inl h
  | cons i rest ih =>
    rcases ih h with h | h
    · rcases own_mem_replaced.mp h with rfl | ⟨h, -⟩
      · exact .inr List.mem_cons_self
      · exact .inl h
    · exact .inr (List.mem_cons_of_mem i h)

theorem own_mem_foldl (hj : j ∉ is) : Entry.own column j ∈ is.foldl (replaced column) es ↔
    Entry.own column j ∈ es ∧ ∀ i ∈ is, ¬ (column i).meets (Entry.own column j) := by
  induction is generalizing es with
  | nil => simp
  | cons i rest ih =>
    rw [List.mem_cons, not_or] at hj
    rw [List.foldl_cons, ih hj.2, own_mem_replaced, List.forall_mem_cons, or_iff_right hj.1,
      and_assoc]

/-- An item of the batch is there unless an item applied after it for the last time meets it. -/
theorem own_mem_foldl_of_last {before after : List ItemId} (hj : j ∉ after) :
    Entry.own column j ∈ (before ++ j :: after).foldl (replaced column) es ↔
      ∀ i ∈ after, ¬ (column i).meets (Entry.own column j) := by
  rw [List.foldl_append, List.foldl_cons, own_mem_foldl hj, own_mem_replaced]
  simp

theorem filter_foldl {told : Entry → Bool} (h : ∀ i ∈ is, ¬ told (Entry.own column i)) :
    (is.foldl (replaced column) es).filter told =
      es.filter fun e => told e && is.all fun i => !(column i).meets e := by
  induction is generalizing es with
  | nil => simp
  | cons i rest ih =>
    rw [List.forall_mem_cons] at h
    -- Meeting none of the rest is one more test on entries, which the item fails as well.
    have hi : ¬ (told (Entry.own column i) &&
        rest.all fun k => !(column k).meets (Entry.own column i)) := by
      simp [h.1]
    rw [List.foldl_cons, ih h.2, replaced, Entry.filter_placed hi, List.filter_filter]
    refine List.filter_congr fun e _ => ?_
    rw [List.all_cons, Bool.and_right_comm, Bool.and_assoc]

end

/-! ## The contents that a batch leaves -/

namespace Contents

variable {column : ItemId → Column} {self : Reference} {c d : Contents} {is : List ItemId}
  {i j : ItemId}

theorem Faithful.mem_members_iff (hc : c.Faithful column) :
    j ∈ c.members ↔ Entry.own column j ∈ c.entries := by
  rw [mem_members]
  constructor
  · rintro ⟨e, he, rfl⟩
    rwa [Entry.own, ← hc.own_key e he]
  · intro h
    exact ⟨_, h, rfl⟩

theorem Coherent.collides_iff (hc : c.Coherent) :
    Dedupe.collides column c i ↔ (column i).key ∈ c.keys ∨ (column i).name ∈ c.keys := by
  unfold Dedupe.collides
  simp only [Bool.or_eq_true, Bool.and_eq_true, Option.isSome_iff_exists, ← hc.mem_keys_iff,
    decide_eq_true_eq]
  by_cases h : (column i).key = (column i).name <;> simp [h, or_comm]

theorem Coherent.entries_append_of_free (hc : c.Coherent) (h : ¬ Dedupe.collides column c i) :
    (c.append ⟨(column i).key, i⟩).entries = replaced column c.entries i := by
  rw [hc.collides_iff, not_or] at h
  refine (Entry.placed_of_none fun e he => ?_).symm
  have hkey : e.key ∈ c.keys := List.mem_map_of_mem he
  simp only [Column.meets, Bool.or_eq_true, decide_eq_true_eq, not_or]
  exact ⟨fun hk => h.1 (hk ▸ hkey), fun hn => h.2 (hn ▸ hkey)⟩

theorem Coherent.appendFree_eq (hc : c.Coherent) :
    (Dedupe.appendFree column c is).1.entries =
      (Batch.free column c.keys is).foldl (replaced column) c.entries ∧
    (Dedupe.appendFree column c is).2 = Batch.late column c.keys is := by
  induction is generalizing c with
  | nil => exact ⟨rfl, rfl⟩
  | cons i rest ih =>
    unfold Dedupe.appendFree Batch.free Batch.late
    by_cases h : Dedupe.collides column c i
    · rw [if_pos h, if_pos (hc.collides_iff.mp h), if_pos (hc.collides_iff.mp h)]
      obtain ⟨hentries, hlate⟩ := ih hc
      exact ⟨hentries, congrArg (i :: ·) hlate⟩
    · rw [if_neg h, if_neg (hc.collides_iff.not.mp h), if_neg (hc.collides_iff.not.mp h),
        List.foldl_cons, ← hc.entries_append_of_free h]
      have hkeys : (c.append ⟨(column i).key, i⟩).keys = c.keys ++ [(column i).key] :=
        List.map_append
      obtain ⟨hentries, hlate⟩ := ih (hc.append ⟨(column i).key, i⟩)
      rw [hkeys] at hentries hlate
      exact ⟨hentries, hlate⟩

theorem Faithful.each_supplant (hc : c.Faithful column) (hk : ∀ i ∈ is, (column i).key ≠ "") :
    (Dedupe.each (Dedupe.supplant column self) c is).contents.entries =
      is.foldl (replaced column) c.entries := by
  induction is generalizing c with
  | nil => rfl
  | cons i rest ih =>
    rw [List.forall_mem_cons] at hk
    rw [List.foldl_cons, ← hc.entries_supplant self]
    exact ih (hc.supplant hk.1) hk.2

theorem Faithful.entries_populate (hc : c.Faithful column) (self : Reference)
    (hk : ∀ i ∈ is, (column i).key ≠ "") :
    (Dedupe.each (Dedupe.supplant column self) (Dedupe.appendFree column c is).1
      (Dedupe.appendFree column c is).2).contents.entries =
      (Batch.order column c.keys is).foldl (replaced column) c.entries := by
  have happended : (Dedupe.appendFree column c is).1.Faithful column :=
    hc.changes (Dedupe.appendFree_changes c fun i hi => ⟨trivial, hk i hi⟩)
  have hlate : ∀ i ∈ (Dedupe.appendFree column c is).2, (column i).key ≠ "" := fun i hi =>
    hk i ((Dedupe.deferred_sublist _ c is).subset hi)
  obtain ⟨hentries, hdeferred⟩ : (Dedupe.appendFree column c is).1.entries = _ ∧
      (Dedupe.appendFree column c is).2 = _ := hc.appendFree_eq
  rw [happended.each_supplant hlate, hentries, hdeferred, ← List.foldl_append,
    Batch.order]

section

variable (hc : c.Faithful column) (hd : d.Faithful column)
  (hentries : d.entries = (Batch.order column c.keys is).foldl (replaced column) c.entries)

include hc hd hentries

theorem Faithful.mem_of_old (hj : j ∈ c.members) (hnot : j ∉ is) :
    j ∈ d.members ↔ ∀ i ∈ is, ¬ (column i).meets (Entry.own column j) := by
  have hperm : (Batch.order column c.keys is).Perm is := Batch.perm_order c.keys is
  rw [hd.mem_members_iff, hentries, own_mem_foldl (hperm.mem_iff.not.mpr hnot),
    and_iff_right (hc.mem_members_iff.mp hj)]
  exact forall_congr' fun i => imp_congr_left hperm.mem_iff

theorem Faithful.filter_members :
    d.members.filter (· ∉ is) = c.members.filter fun j => j ∉ is ∧ j ∈ d.members := by
  have hbatch : ∀ i ∈ Batch.order column c.keys is, ¬ decide ((Entry.own column i).item ∉ is) := by
    intro i hi
    rw [decide_eq_true_eq, not_not]
    exact (Batch.perm_order c.keys is).mem_iff.mp hi
  have hstay : ∀ e ∈ c.entries, (decide (e.item ∉ is) &&
      (Batch.order column c.keys is).all fun i => !(column i).meets e) =
        decide (e.item ∉ is ∧ e.item ∈ d.members) := by
    intro e he
    have howned : Entry.own column e.item = e := by rw [Entry.own, ← hc.own_key e he]
    have hmem := hc.mem_of_old hd hentries (mem_members.mpr ⟨e, he, rfl⟩)
    rw [howned] at hmem
    rw [Bool.eq_iff_iff, Bool.and_eq_true, decide_eq_true_eq, decide_eq_true_eq, List.all_eq_true]
    refine and_congr_right fun hnot => ?_
    rw [hmem hnot]
    simp [(Batch.perm_order c.keys is).mem_iff]
  calc d.members.filter (· ∉ is)
      = (d.entries.filter fun e => e.item ∉ is).map (·.item) := List.filter_map
    _ = (c.entries.filter fun e => decide (e.item ∉ is) &&
          (Batch.order column c.keys is).all fun i => !(column i).meets e).map (·.item) := by
      rw [hentries, filter_foldl hbatch]
    _ = (c.entries.filter fun e => e.item ∉ is ∧ e.item ∈ d.members).map (·.item) := by
      rw [List.filter_congr hstay]
    _ = c.members.filter fun j => j ∉ is ∧ j ∈ d.members := by
      unfold members
      rw [List.filter_map]
      rfl

end

theorem Faithful.populated {cat : Catalogue} (hc : c.Faithful cat.column)
    (hd : d.Faithful cat.column)
    (hentries : d.entries = (Batch.order cat.column c.keys is).foldl (replaced cat.column) c.entries)
    (hexact : d.Exact cat) : Populated cat is c d where
  applied := Batch.perm_order c.keys is
  old := by
    intro j hj hnot
    rw [hc.mem_of_old hd hentries hj hnot]
    exact forall₂_congr fun i _ => not_meets_own
  new := by
    intro j before after horder hj
    rw [hd.mem_members_iff, hentries, horder, own_mem_foldl_of_last hj]
    exact forall₂_congr fun i _ => not_meets_own
  only := by
    intro j hj
    rw [hd.mem_members_iff, hentries] at hj
    exact (mem_or_mem_of_foldl hj).imp hc.mem_members_iff.mpr
      (Batch.perm_order c.keys is).mem_iff.mp
  order := hc.filter_members hd hentries
  exact := hexact

end Contents

/-! ## Populating in the order of application -/

variable {config : Log.Config} {r : Registry} {slot : String} {c : Collection}
  {given : List (String × Option ItemId)}

theorem Registry.attempt_populate (r : Registry) (slot : String) (hk : c.kind = .dedupe)
    (hfaithful : (r.contents c).Faithful r.catalogue.column)
    (hgiven : ∀ g ∈ given, ¬ Offends r.catalogue.column .dedupe (g.2, some g.1)) :
    ∃ d changed, r.attempt slot c (.populate given) = .ok d ∧ d.value = .flag changed ∧
      d.contents.entries =
        (Batch.order r.catalogue.column (r.contents c).keys (given.filterMap (·.2))).foldl
          (replaced r.catalogue.column) (r.contents c).entries := by
  have hchecked := Dedupe.checkEntries_of_valid hgiven
  have hkey : ∀ i ∈ given.filterMap (·.2), (r.catalogue.column i).key ≠ "" :=
    (Dedupe.checkAll_ok hchecked).2
  unfold attempt
  rw [hk]
  simp only [Call.attempt, Dedupe.tryPopulate, hchecked]
  exact ⟨_, _, rfl, rfl, hfaithful.entries_populate (.slot slot) hkey⟩

/--
As long as members of deduplicating collections keep their keys, populating by a valid batch succeeds.
Of the items that are not in the batch, those stay whose key no item of the batch has as its key or its
name, and they keep their order; an item of the batch is there unless one that was applied after it for
the last time has its key as key or name; and nothing else is there.
-/
theorem populates_in_order (h : Run Steady (.empty config) r) (hc : r.collection? slot = some c)
    (hk : c.kind = .dedupe) (hi : r.knows (given.filterMap (·.2)))
    (hgiven : ∀ g ∈ given, ¬ Offends r.catalogue.column .dedupe (g.2, some g.1)) (mode : Mode) :
    (∃ changed, r.outcome (.call slot (.populate given) mode) =
      .reply (mode.success true (.flag changed))) ∧
    Populated r.catalogue (given.filterMap (·.2)) (r.contents c)
      ((r.act (.call slot (.populate given) mode)).1.contents c) := by
  have hfor := Call.isFor_of_dedupe (.populate given) hk
  have hfaithful := h.faithful hc hk
  have hsettled := h.settled_call hc hk (.populate given) mode
  obtain ⟨d, changed, hd, hvalue, hentries⟩ := r.attempt_populate slot hk hfaithful hgiven
  rw [Registry.outcome_call_ok hc hfor hi hd, hvalue]
  rw [Registry.contents_act_call_ok h.reachable hc hfor hi hd] at hsettled ⊢
  exact ⟨⟨changed, rfl⟩, hfaithful.populated (hsettled.faithful rfl) hentries hsettled.exact⟩

/-- A batch in which names point at a key that was there before, and at the keys of two other items of
the batch, of which one is in the batch again. -/
theorem populates_in_order_of_names : ∃ config r c d, Run Steady (.empty config) r ∧
    r.collection? "d" = some c ∧
    (r.contents c).entries = [⟨"a", .made "a"⟩, ⟨"b", .made "b"⟩] ∧
    Batch.order r.catalogue.column (r.contents c).keys
      [.made "n", .made "p", .made "s", .made "q", .made "p", .made "t"] =
        [.made "p", .made "s", .made "n", .made "q", .made "p", .made "t"] ∧
    (∃ changed, r.outcome (.call "d" (.populate [("n", some (.made "n")), ("p", some (.made "p")),
      ("s", some (.made "s")), ("q", some (.made "q")), ("p", some (.made "p")),
      ("t", some (.made "t"))]) .raising) = .reply (.returned (.flag changed))) ∧
    d.entries = [⟨"n", .made "n"⟩, ⟨"b", .made "b"⟩, ⟨"q", .made "q"⟩, ⟨"t", .made "t"⟩,
      ⟨"p", .made "p"⟩] ∧
    Populated r.catalogue [.made "n", .made "p", .made "s", .made "q", .made "p", .made "t"]
      (r.contents c) d := by
  have h : Run Steady (.empty (.ofDefault .info false)) _ := Run.refl
    |>.act (.makeItem "a" (.named "a")) trivial
    |>.act (.makeItem "b" (.named "b")) trivial
    |>.act (.makeItem "n" ⟨"a", "n"⟩) trivial
    |>.act (.makeItem "p" (.named "p")) trivial
    |>.act (.makeItem "s" (.named "s")) trivial
    |>.act (.makeItem "q" ⟨"p", "q"⟩) trivial
    |>.act (.makeItem "t" ⟨"s", "t"⟩) trivial
    |>.act (.create "d" .dedupe [("a", some (.made "a")), ("b", some (.made "b"))] none .raising)
      trivial
  have hpopulates := fun c (given : List (String × Option ItemId))
      (hc : Registry.collection? _ "d" = some c) hk (hi : Registry.knows _ (given.filterMap (·.2)))
      hgiven => populates_in_order h hc hk hi hgiven .raising
  obtain ⟨⟨changed, hreply⟩, hpopulated⟩ := hpopulates
    ⟨.dedupe, ⟨⟨0⟩, ⟨0⟩, ⟨0⟩⟩, ⟨none, .collection⟩⟩
    [("n", some (.made "n")), ("p", some (.made "p")), ("s", some (.made "s")),
      ("q", some (.made "q")), ("p", some (.made "p")), ("t", some (.made "t"))]
    (by decide) rfl (by decide) (by
      simp only [List.forall_mem_cons, List.not_mem_nil, false_imp_iff, implies_true, and_true]
      and_intros <;> exact not_offends (by decide) (by decide))
  exact ⟨_, _, _, _, h, by decide, by decide, by decide, ⟨changed, hreply⟩, by decide, hpopulated⟩

end KeyedColumns
