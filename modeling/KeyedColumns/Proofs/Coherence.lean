import KeyedColumns.Proofs.Index

/-!
# Contents that hang together

Three degrees of agreement between the parts of a collection: `Coherent` holds of every collection,
`Deduplicated` of every deduplicating one whatever becomes of the keys of its items, `Faithful` as long
as its members keep their keys.
-/

namespace KeyedColumns

namespace Contents

/-- The item of each entry. -/
def members (c : Contents) : List ItemId := c.entries.map (·.item)

/-- The index is that of the entries, and only items of entries are present. -/
structure Coherent (c : Contents) : Prop where
  index : c.index = KeyIndex.ofEntries c.entries
  active : ∀ i ∈ c.active, i ∈ c.members

/-- Each key comes once and says something. -/
structure Deduplicated (c : Contents) : Prop extends Coherent c where
  keys_nodup : (c.entries.map (·.key)).Nodup
  key_ne : ∀ e ∈ c.entries, e.key ≠ ""

/-- Each entry stands under its item's own key, and each item is present and comes once. -/
structure Faithful (column : ItemId → Column) (c : Contents) : Prop extends Deduplicated c where
  own_key : ∀ e ∈ c.entries, e.key = (column e.item).key
  members_nodup : c.members.Nodup
  present : ∀ i ∈ c.members, i ∈ c.active

@[simp] theorem members_append (c : Contents) (e : Entry) :
    (c.append e).members = c.members ++ [e.item] := by
  simp [members]

@[simp] theorem mem_active_append {c : Contents} {e : Entry} {i : ItemId} :
    i ∈ (c.append e).active ↔ e.item = i ∨ i ∈ c.active := ActiveSet.mem_insert

theorem mem_active_reindex {c : Contents} {i : ItemId} :
    i ∈ c.reindex.active ↔ i ∈ c.reindex.members := ActiveSet.mem_ofList

theorem entries_empty : empty.entries = [] := rfl

theorem not_mem_active_empty (i : ItemId) : i ∉ empty.active := ActiveSet.notMem_empty i

theorem mem_members {c : Contents} {i : ItemId} : i ∈ c.members ↔ ∃ e ∈ c.entries, e.item = i :=
  List.mem_map

/-! ## Coherence -/

theorem coherent_empty : empty.Coherent where
  index := rfl
  active := fun i hi => absurd hi (not_mem_active_empty i)

theorem coherent_reindex (c : Contents) : c.reindex.Coherent where
  index := rfl
  active := fun _ hi => mem_active_reindex.mp hi

theorem Coherent.append {c : Contents} (hc : c.Coherent) (e : Entry) : (c.append e).Coherent where
  index := by
    rw [entries_append, KeyIndex.ofEntries_snoc, ← hc.index]
    rfl
  active := by
    intro i hi
    rw [members_append, List.mem_append, List.mem_singleton]
    rcases mem_active_append.mp hi with rfl | hi
    · exact Or.inr rfl
    · exact Or.inl (hc.active i hi)

variable {c : Contents}

theorem Coherent.items_eq (hc : c.Coherent) : c.items = c.members := by
  unfold items members
  rw [hc.index, KeyIndex.byPosition_ofEntries]

theorem Coherent.find?_eq (hc : c.Coherent) (k : String) :
    c.find? k = (c.entries.find? (·.key = k)).map (·.item) := by
  unfold find?
  rw [hc.index, KeyIndex.find?_byKey_ofEntries]

theorem Coherent.firstPosition_eq (hc : c.Coherent) (k : String) :
    c.index.firstPosition.find? k = c.entries.findIdx? (·.key = k) := by
  rw [hc.index, KeyIndex.find?_firstPosition_ofEntries]

theorem Coherent.find?_mem (hc : c.Coherent) {k : String} {i : ItemId} (h : c.find? k = some i) :
    ⟨k, i⟩ ∈ c.entries := by
  rw [hc.find?_eq, Option.map_eq_some_iff] at h
  obtain ⟨e, he, rfl⟩ := h
  have hk := List.find?_some he
  rw [decide_eq_true_eq] at hk
  subst hk
  exact List.mem_of_find?_eq_some he

theorem Coherent.position_of_find? (hc : c.Coherent) {k : String} {i : ItemId}
    (h : c.find? k = some i) :
    ∃ p, c.index.firstPosition.find? k = some p ∧ c.entries[p]? = some ⟨k, i⟩ := by
  rw [hc.find?_eq, Option.map_eq_some_iff] at h
  obtain ⟨e, he, rfl⟩ := h
  have hk := List.find?_some he
  have hsome : (c.entries.findIdx? (·.key = k)).isSome := by
    rw [List.findIdx?_isSome, List.any_eq_true]
    exact ⟨e, List.mem_of_find?_eq_some he, hk⟩
  obtain ⟨p, hp⟩ := Option.isSome_iff_exists.mp hsome
  have hfirst : c.entries[p]? = some e := by
    rw [← he, List.find?_eq_bind_findIdx?_getElem?, hp]
    rfl
  rw [decide_eq_true_eq] at hk
  subst hk
  exact ⟨p, by rw [hc.firstPosition_eq, hp], hfirst⟩

theorem Coherent.mem_keys_iff (hc : c.Coherent) {k : String} :
    k ∈ c.keys ↔ ∃ i, c.find? k = some i := by
  rw [hc.find?_eq]
  simp [keys, Option.map_eq_some_iff, ← Option.isSome_iff_exists, List.find?_isSome]

theorem Coherent.not_mem_keys (hc : c.Coherent) {k : String} (h : c.find? k = none) :
    ∀ e ∈ c.entries, e.key ≠ k := by
  rw [hc.find?_eq, Option.map_eq_none_iff, List.find?_eq_none] at h
  intro e he hk
  exact h e he (by simpa using hk)

/-! ## Keys that come once -/

theorem deduplicated_empty : empty.Deduplicated where
  toCoherent := coherent_empty
  keys_nodup := List.nodup_nil
  key_ne := by rw [entries_empty]; simp

theorem Deduplicated.eq_of_key (hc : c.Deduplicated) {d e : Entry} (hd : d ∈ c.entries)
    (he : e ∈ c.entries) (hk : d.key = e.key) : d = e :=
  List.inj_on_of_nodup_map hc.keys_nodup hd he hk

theorem Deduplicated.find?_iff (hc : c.Deduplicated) {k : String} {i : ItemId} :
    c.find? k = some i ↔ ⟨k, i⟩ ∈ c.entries := by
  constructor
  · exact hc.find?_mem
  · intro h
    cases hf : c.find? k with
    | none => exact absurd rfl (hc.not_mem_keys hf _ h)
    | some j => rw [Entry.mk.inj (hc.eq_of_key (hc.find?_mem hf) h rfl) |>.2]

theorem deduplicated_reindex (hn : (c.entries.map (·.key)).Nodup)
    (hk : ∀ e ∈ c.entries, e.key ≠ "") : c.reindex.Deduplicated where
  toCoherent := coherent_reindex _
  keys_nodup := hn
  key_ne := hk

/-! ## Own keys -/

variable {column : ItemId → Column}

theorem faithful_empty : empty.Faithful column where
  toDeduplicated := deduplicated_empty
  own_key := by rw [entries_empty]; simp
  members_nodup := List.nodup_nil
  present := by simp [members, entries_empty]

theorem members_nodup_of_own_key {es : List Entry} (hn : (es.map (·.key)).Nodup)
    (ho : ∀ e ∈ es, e.key = (column e.item).key) : (es.map (·.item)).Nodup := by
  have hkeys : es.map (·.key) = (es.map (·.item)).map fun i => (column i).key := by
    rw [List.map_map]
    exact List.map_congr_left ho
  rw [hkeys] at hn
  exact hn.of_map _

theorem faithful_reindex (hn : (c.entries.map (·.key)).Nodup)
    (hk : ∀ e ∈ c.entries, e.key ≠ "") (ho : ∀ e ∈ c.entries, e.key = (column e.item).key) :
    c.reindex.Faithful column where
  toDeduplicated := deduplicated_reindex hn hk
  own_key := ho
  members_nodup := members_nodup_of_own_key hn ho
  present := fun _ hi => mem_active_reindex.mpr hi

theorem Faithful.congr {other : ItemId → Column} (hc : c.Faithful column)
    (h : ∀ i ∈ c.members, other i = column i) : c.Faithful other where
  toDeduplicated := hc.toDeduplicated
  own_key := by
    intro e he
    rw [h e.item (mem_members.mpr ⟨e, he, rfl⟩)]
    exact hc.own_key e he
  members_nodup := hc.members_nodup
  present := hc.present

end Contents

end KeyedColumns
