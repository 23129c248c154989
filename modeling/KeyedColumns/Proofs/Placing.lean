import KeyedColumns.Proofs.Indistinguishable
import Mathlib.Data.List.InsertIdx

/-!
# Placing an entry

Adding and replacing both place one entry among others: those that yield to it go, and it stands where
the first of them stood, or at the end. They differ in which entries yield. To an item that is added, the
entry under its key yields; to an item that replaces, the entry under its name does too.
-/

namespace KeyedColumns

namespace Entry

/-- Entries with a new one where the first stood that yields to it, or at the end, and without those
that yield. -/
def placed (e : Entry) (yields : Entry → Bool) (es : List Entry) : List Entry :=
  (es.filter (!yields ·)).insertIdx (es.findIdx yields) e

/-- An item under its own key. -/
def own (column : ItemId → Column) (i : ItemId) : Entry := ⟨(column i).key, i⟩

variable {e x : Entry} {yields : Entry → Bool} {es : List Entry}

theorem placed_cons_of_yields (h : yields x) :
    e.placed yields (x :: es) = e :: es.filter (!yields ·) := by
  simp [placed, h, List.findIdx_cons]

theorem placed_cons_of_not_yields (h : ¬ yields x) :
    e.placed yields (x :: es) = x :: e.placed yields es := by
  simp [placed, h, List.findIdx_cons]

theorem placed_eq : e.placed yields es =
    es.takeWhile (!yields ·) ++ e :: (es.dropWhile (!yields ·)).filter (!yields ·) := by
  induction es with
  | nil => rfl
  | cons x es ih =>
    by_cases h : yields x
    · rw [placed_cons_of_yields h]
      simp [h]
    · rw [placed_cons_of_not_yields h, ih]
      simp [h]

theorem perm_placed : (e.placed yields es).Perm (e :: es.filter (!yields ·)) := by
  induction es with
  | nil => rfl
  | cons x es ih =>
    by_cases h : yields x
    · rw [placed_cons_of_yields h]
      simp [h]
    · rw [placed_cons_of_not_yields h]
      simpa [h] using (ih.cons x).trans (.swap ..)

theorem mem_placed : x ∈ e.placed yields es ↔ x = e ∨ x ∈ es ∧ ¬ yields x := by
  rw [perm_placed.mem_iff, List.mem_cons, List.mem_filter]
  simp

theorem filter_placed {told : Entry → Bool} (he : ¬ told e) :
    (e.placed yields es).filter told = (es.filter (!yields ·)).filter told := by
  induction es with
  | nil => simp [placed, he]
  | cons x es ih =>
    by_cases hx : yields x
    · rw [placed_cons_of_yields hx]
      simp [he, hx]
    · rw [placed_cons_of_not_yields hx, List.filter_cons, List.filter_cons_of_pos (by simpa using hx),
        List.filter_cons, ih]

theorem placed_congr {yields' : Entry → Bool} (h : ∀ x ∈ es, yields x = yields' x) :
    e.placed yields es = e.placed yields' es := by
  induction es with
  | nil => rfl
  | cons x es ih =>
    have hrest : ∀ x ∈ es, yields x = yields' x := fun y hy => h y (List.mem_cons_of_mem x hy)
    have hx : yields x = yields' x := h x List.mem_cons_self
    by_cases hy : yields x
    · rw [placed_cons_of_yields hy, placed_cons_of_yields (hx ▸ hy)]
      exact congrArg (e :: ·) (List.filter_congr fun y hy => by rw [hrest y hy])
    · rw [placed_cons_of_not_yields hy, placed_cons_of_not_yields (hx ▸ hy), ih hrest]

theorem placed_of_none (h : ∀ x ∈ es, ¬ yields x) : e.placed yields es = es ++ [e] := by
  induction es with
  | nil => rfl
  | cons x es ih =>
    rw [placed_cons_of_not_yields (h x List.mem_cons_self),
      ih fun y hy => h y (List.mem_cons_of_mem x hy), List.cons_append]

theorem placed_eq_set {p : Nat} {d : Entry} (hn : (es.map (·.key)).Nodup) (hp : es[p]? = some d)
    (hk : d.key = e.key) : e.placed (fun x => x.key = e.key) es = es.set p e := by
  induction es generalizing p with
  | nil => simp at hp
  | cons x es ih =>
    rw [List.map_cons, List.nodup_cons] at hn
    cases p with
    | zero =>
      obtain rfl : x = d := by simpa using hp
      have hrest : ∀ y ∈ es, y.key ≠ e.key := by
        intro y hy hyk
        exact hn.1 (List.mem_map.mpr ⟨y, hy, hyk.trans hk.symm⟩)
      rw [placed_cons_of_yields (by simpa using hk), List.set_cons_zero,
        List.filter_eq_self.mpr fun y hy => by simpa using hrest y hy]
    | succ p =>
      have hp : es[p]? = some d := by simpa using hp
      have hx : x.key ≠ e.key := by
        intro hxk
        exact hn.1 (List.mem_map.mpr ⟨d, List.mem_of_getElem? hp, hk.trans hxk.symm⟩)
      rw [placed_cons_of_not_yields (by simpa using hx), ih hn.2 hp, List.set_cons_succ]

end Entry

/-- The entries after an item is added to some. -/
def added (column : ItemId → Column) (es : List Entry) (i : ItemId) : List Entry :=
  (Entry.own column i).placed (fun e => e.key = (column i).key) es

theorem added_of_new {column : ItemId → Column} {es : List Entry} {i : ItemId}
    (h : ∀ e ∈ es, e.key ≠ (column i).key) : added column es i = es ++ [Entry.own column i] :=
  Entry.placed_of_none fun e he => by simpa using h e he

theorem added_of_held {column : ItemId → Column} {es : List Entry} {i old : ItemId} {p : Nat}
    (hn : (es.map (·.key)).Nodup) (hp : es[p]? = some ⟨(column i).key, old⟩) :
    added column es i = es.set p (Entry.own column i) :=
  Entry.placed_eq_set hn hp rfl

theorem keys_added {column : ItemId → Column} {es : List Entry} (hn : (es.map (·.key)).Nodup)
    (i : ItemId) : (added column es i).map (·.key) =
      if (column i).key ∈ es.map (·.key) then es.map (·.key)
      else es.map (·.key) ++ [(column i).key] := by
  split
  · next hk =>
    obtain ⟨⟨_, old⟩, he, rfl⟩ := List.mem_map.mp hk
    obtain ⟨p, hp⟩ := List.mem_iff_getElem?.mp he
    rw [added_of_held hn hp]
    exact KeyIndex.keys_set hp i
  · next hk =>
    rw [added_of_new fun e he hek => hk (List.mem_map.mpr ⟨e, he, hek⟩), List.map_append]
    rfl

/-- Whether an entry stands under the key or under the name of a column. -/
def Column.meets (col : Column) (e : Entry) : Bool := e.key = col.key || e.key = col.name

/-- The entries after an item takes the place of those under its key and its name. -/
def replaced (column : ItemId → Column) (es : List Entry) (i : ItemId) : List Entry :=
  (Entry.own column i).placed (column i).meets es

/-! ## An operation on each of some items -/

namespace Dedupe

variable {operation : Contents → ItemId → Done Bool} {c : Contents} {is : List ItemId}

theorem contents_each_of_unchanged (h : ∀ i ∈ is, (operation c i).contents = c) :
    (each operation c is).contents = c := by
  induction is with
  | nil => rfl
  | cons i rest ih =>
    rw [List.forall_mem_cons] at h
    show (each operation (operation c i).contents rest).contents = c
    rw [h.1]
    exact ih h.2

/-- Up to the first item that changes something the contents stay, and that one is a change, whatever
comes after it. -/
theorem each_unchanged_iff (h : ∀ i ∈ is, (operation c i).value = false → (operation c i).contents = c) :
    (each operation c is).value = false ↔ ∀ i ∈ is, (operation c i).value = false := by
  induction is with
  | nil => simp [each]
  | cons i rest ih =>
    rw [List.forall_mem_cons] at h ⊢
    show ((operation c i).value || (each operation (operation c i).contents rest).value) = false ↔ _
    rw [Bool.or_eq_false_iff]
    refine and_congr_right fun hfirst => ?_
    rw [h.1 hfirst]
    exact ih h.2

end Dedupe

/-! ## Contents after an item is placed -/

namespace Contents

variable {column : ItemId → Column} {self : Reference} {c d : Contents} {i : ItemId}

theorem Faithful.whole (hc : c.Faithful column) : c.Whole := ⟨hc.toCoherent, hc.present⟩

theorem Faithful.eq_of_entries (hc : c.Faithful column) (hd : d.Faithful column)
    (h : c.entries = d.entries) : c = d :=
  hc.whole.eq_of_entries hd.whole h

theorem Faithful.changes (hc : c.Faithful column)
    (h : Dedupe.Changes column (fun _ => True) c d) : d.Faithful column := by
  induction h with
  | refl => exact hc
  | tail _ h ih => exact ih.change h

/-! ### Adding -/

theorem Deduplicated.put (hc : c.Deduplicated) (hk : (column i).key ≠ "") :
    (Dedupe.put column self c i).contents.Deduplicated :=
  hc.changes (Dedupe.put_changes c trivial hk)

theorem Faithful.put (hc : c.Faithful column) (hk : (column i).key ≠ "") :
    (Dedupe.put column self c i).contents.Faithful column :=
  hc.changes (Dedupe.put_changes c trivial hk)

theorem Deduplicated.entries_put (hc : c.Deduplicated) (self : Reference) (i : ItemId) :
    (Dedupe.put column self c i).contents.entries = added column c.entries i := by
  unfold Dedupe.put
  simp only
  split
  · next hf => exact (added_of_new (hc.not_mem_keys hf)).symm
  · next old hf =>
    obtain ⟨p, hp, hold⟩ := hc.position_of_find? hf
    rw [added_of_held hc.keys_nodup hold]
    split
    · next heq =>
      -- The item stands there already, so setting its entry changes nothing.
      subst heq
      obtain ⟨hlt, hget⟩ := List.getElem?_eq_some_iff.mp hold
      rw [Entry.own, ← hget, List.set_getElem_self]
    · rw [hp]
      exact entries_takePlace hold

theorem Coherent.put_unchanged_iff (hc : c.Coherent) :
    (Dedupe.put column self c i).value = false ↔ c.find? (column i).key = some i := by
  unfold Dedupe.put
  simp only
  split
  · next hf => simp [hf]
  · next old hf =>
    obtain ⟨p, hp, -⟩ := hc.position_of_find? hf
    rw [hp, hf]
    split
    · next heq => simp [heq]
    · next hne => simp [hne]

theorem contents_put_of_held (h : c.find? (column i).key = some i) :
    (Dedupe.put column self c i).contents = c := by
  unfold Dedupe.put
  simp [h]

theorem Deduplicated.put_changed_iff (hc : c.Deduplicated) :
    (Dedupe.put column self c i).value = true ↔ (Dedupe.put column self c i).contents ≠ c := by
  rw [← Bool.not_eq_false, not_iff_not, hc.put_unchanged_iff]
  refine ⟨contents_put_of_held, fun h => ?_⟩
  rw [hc.find?_iff, ← h, hc.entries_put]
  exact Entry.mem_placed.mpr (.inl rfl)

/-! ### Replacing -/

theorem Faithful.find?_eq_item_iff (hc : c.Faithful column) {e : Entry} (he : e ∈ c.entries)
    {k : String} : c.find? k = some e.item ↔ e.key = k := by
  rw [hc.find?_iff]
  constructor
  · intro hk
    rw [hc.own_key e he]
    exact (hc.own_key _ hk).symm
  · rintro rfl
    exact he

theorem Faithful.stays_eq (hc : c.Faithful column) {e : Entry} (he : e ∈ c.entries) :
    Dedupe.stays column c i e = !(column i).meets e := by
  have hmeets : (column i).meets e ↔ c.find? (column i).key = some e.item ∨
      c.find? (column i).name = some e.item := by
    simp [Column.meets, hc.find?_eq_item_iff he]
  unfold Dedupe.stays Dedupe.displaced
  congr 1
  rw [Bool.eq_iff_iff, hmeets]
  simp only [Bool.or_eq_true, decide_eq_true_eq]
  split
  · next heq => simp [heq, eq_comm]
  · simp [eq_comm]

theorem Faithful.supplanted_eq (hc : c.Faithful column) (i : ItemId) :
    Dedupe.before column c i ++ ⟨(column i).key, i⟩ :: Dedupe.after column c i =
      replaced column c.entries i := by
  have hstays : (Entry.own column i).placed (fun e => !Dedupe.stays column c i e) c.entries =
      replaced column c.entries i :=
    Entry.placed_congr fun e he => by rw [hc.stays_eq he, Bool.not_not]
  rw [← hstays, Entry.placed_eq, Dedupe.before_eq, Dedupe.after_eq]
  simp only [Bool.not_not]
  rfl

theorem Faithful.supplant (hc : c.Faithful column) (hk : (column i).key ≠ "") :
    (Dedupe.supplant column self c i).contents.Faithful column :=
  hc.changes (Dedupe.supplant_changes c trivial hk)

theorem Faithful.entries_supplant (hc : c.Faithful column) (self : Reference) (i : ItemId) :
    (Dedupe.supplant column self c i).contents.entries = replaced column c.entries i := by
  unfold Dedupe.supplant
  simp only [hc.supplanted_eq i]
  split
  · next h => exact h.symm
  · rfl

end Contents

/-! ## Calls that place an item -/

theorem Dedupe.check_own {column : ItemId → Column} {i : ItemId} (hkey : (column i).key ≠ "") :
    check column (some i) none = .ok i :=
  check_ok_iff.mpr ⟨rfl, nofun, hkey⟩

variable {c : Collection} {i : ItemId}

theorem Registry.attempt_replace (r : Registry) (slot : String) (hk : c.kind = .dedupe)
    (hkey : (r.catalogue.column i).key ≠ "") :
    ∃ d, r.attempt slot c (.replace (some i)) = .ok d ∧ d.value = .flag true ∧
      d.contents =
        (Dedupe.supplant r.catalogue.column (.slot slot) (r.contents c) i).contents := by
  unfold attempt
  rw [hk]
  simp only [Call.attempt, Dedupe.tryReplace, Dedupe.check_own hkey]
  exact ⟨_, rfl, rfl, rfl⟩

theorem Registry.attempt_add_given (r : Registry) (slot : String) (hk : c.kind = .dedupe)
    {given : Option String} (hgiven : ∀ key ∈ given, key = (r.catalogue.column i).key)
    (hkey : (r.catalogue.column i).key ≠ "") :
    ∃ d, r.attempt slot c (.add (some i) given) = .ok d ∧
      d.value = .flag (Dedupe.put r.catalogue.column (.slot slot) (r.contents c) i).value ∧
      d.contents = (Dedupe.put r.catalogue.column (.slot slot) (r.contents c) i).contents := by
  have hchecked := Dedupe.check_ok_iff.mpr ⟨rfl, hgiven, hkey⟩
  unfold attempt
  rw [hk]
  simp only [Call.attempt, Dedupe.tryAdd, hchecked]
  exact ⟨_, rfl, rfl, rfl⟩

theorem Registry.attempt_add (r : Registry) (slot : String) (hk : c.kind = .dedupe)
    (hkey : (r.catalogue.column i).key ≠ "") :
    ∃ d, r.attempt slot c (.add (some i) none) = .ok d ∧
      d.value = .flag (Dedupe.put r.catalogue.column (.slot slot) (r.contents c) i).value ∧
      d.contents = (Dedupe.put r.catalogue.column (.slot slot) (r.contents c) i).contents :=
  r.attempt_add_given slot hk nofun hkey

end KeyedColumns
