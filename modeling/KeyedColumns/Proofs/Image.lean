import KeyedColumns.Proofs.Preservation
import KeyedColumns.Proofs.Sharing

/-!
# Images of contents

A restored collection is the image of a saved one: in each of its parts, every item is replaced by the
item that was restored for it. Images hang together as well as what they are images of.
-/

namespace KeyedColumns

namespace Contents

/--
The second contents are the first with each item replaced by another one, with an equal column. Only
items that are known to the catalogue are looked for in the set of those present.
-/
structure Image (f : ItemId → ItemId) (cat cat' : Catalogue) (c d : Contents) : Prop where
  entries : d.entries = c.entries.map fun e => { e with item := f e.item }
  index : d.index = c.index.archived f
  active : ∀ j, j ∈ d.active ↔ ∃ i, cat.knows i ∧ i ∈ c.active ∧ f i = j
  knows : ∀ i ∈ c.members, cat'.knows (f i)
  column : ∀ i ∈ c.members, cat'.column (f i) = cat.column i

variable {f : ItemId → ItemId} {cat cat' : Catalogue} {c d : Contents}

theorem Image.members_eq (h : Image f cat cat' c d) : d.members = c.members.map f := by
  unfold members
  rw [h.entries, List.map_map, List.map_map]
  rfl

theorem Image.keys_eq (h : Image f cat cat' c d) : d.entries.map (·.key) = c.entries.map (·.key) := by
  rw [h.entries, List.map_map]
  rfl

theorem Image.coherent (h : Image f cat cat' c d) (hc : c.Coherent) : d.Coherent where
  index := by
    rw [h.index, hc.index, h.entries, KeyIndex.ofEntries_map]
    rfl
  active := by
    intro j hj
    obtain ⟨i, -, hi, rfl⟩ := (h.active j).mp hj
    rw [h.members_eq]
    exact List.mem_map_of_mem (hc.active i hi)

theorem Image.deduplicated (h : Image f cat cat' c d) (hc : c.Deduplicated) : d.Deduplicated where
  toCoherent := h.coherent hc.toCoherent
  keys_nodup := by
    rw [h.keys_eq]
    exact hc.keys_nodup
  key_ne := by
    intro e he
    rw [h.entries] at he
    obtain ⟨e', he', rfl⟩ := List.mem_map.mp he
    exact hc.key_ne e' he'

theorem Image.faithful (h : Image f cat cat' c d) (hc : c.Faithful cat.column)
    (hknown : ∀ i ∈ c.members, cat.knows i) : d.Faithful cat'.column := by
  have hd := h.deduplicated hc.toDeduplicated
  have hown : ∀ e ∈ d.entries, e.key = (cat'.column e.item).key := by
    intro e he
    rw [h.entries] at he
    obtain ⟨e', he', rfl⟩ := List.mem_map.mp he
    rw [h.column e'.item (mem_members.mpr ⟨e', he', rfl⟩)]
    exact hc.own_key e' he'
  refine ⟨hd, hown, members_nodup_of_own_key hd.keys_nodup hown, ?_⟩
  intro j hj
  rw [h.members_eq] at hj
  obtain ⟨i, hi, rfl⟩ := List.mem_map.mp hj
  exact (h.active _).mpr ⟨i, hknown i hi, hc.present i hi, rfl⟩

end Contents

/-! ## What is loaded -/

theorem ActiveSet.mem_archived {f : ItemId → ItemId} {items : List ItemId} {s : ActiveSet}
    {j : ItemId} : j ∈ s.archived f items ↔ ∃ i, i ∈ items ∧ i ∈ s ∧ f i = j := by
  unfold archived
  rw [ActiveSet.mem_ofList, List.mem_map]
  constructor
  · rintro ⟨i, hi, rfl⟩
    rw [List.mem_filter] at hi
    exact ⟨i, hi.1, hi.2, rfl⟩
  · rintro ⟨i, hi, his, rfl⟩
    exact ⟨i, List.mem_filter.mpr ⟨hi, his⟩, rfl⟩

/-- What was saved under a handle comes out as its image, of every archive that tracks objects. -/
theorem Archive.Tracked.image {a : Archive} {r r' : Registry}
    {loads : List ((Kind × Handle) × String)} {m : Renaming} {h : Handle}
    (ht : a.Tracked r loads r' m) (hm : Met loads h) :
    Contents.Image m.item a.catalogue r'.catalogue (a.contents h)
      (r'.parts.contents (m.handle h)) := by
  refine ⟨?_, ht.indexes.fields _ ⟨h, hm, rfl⟩, ?_, ?_, ?_⟩
  · exact congrArg EntrySequence.entries (ht.sequences.fields _ ⟨h, hm, rfl⟩)
  · intro j
    show j ∈ r'.parts.actives.get (m.active h.active) ↔ _
    rw [ht.actives.fields _ ⟨h, hm, rfl⟩]
    refine ActiveSet.mem_archived.trans (exists_congr fun i => ?_)
    rw [Catalogue.knows_iff_mem_items]
    exact Iff.rfl
  · exact fun i hi => (ht.items.fresh i ⟨h, hm, mem_itemsOf.mpr (Or.inr (Or.inl hi))⟩).2
  · exact fun i hi => ht.items.fields i ⟨h, hm, mem_itemsOf.mpr (Or.inr (Or.inl hi))⟩

end KeyedColumns
