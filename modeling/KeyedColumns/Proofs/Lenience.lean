import KeyedColumns.Proofs.Representation

/-!
# How a lenient collection is represented

A lenient collection may hold a key and an item more than once. Each key is indexed where it comes
first, every entry is indexed by its position, and an item is present as long as one entry holds it.
-/

namespace KeyedColumns

namespace Dict

variable {κ α : Type} [DecidableEq κ]

end Dict

namespace KeyIndex

end KeyIndex

namespace Contents

/-- In contents made for a lenient collection, all members are present. -/
structure Attended (kind : Kind) (cat : Catalogue) (c : Contents) : Prop extends
    Sound kind cat c where
  present : kind = .lenient → ∀ i ∈ c.members, i ∈ c.active

variable {kind : Kind} {cat cat' : Catalogue} {c d : Contents}

theorem attended_empty (kind : Kind) (cat : Catalogue) : empty.Attended kind cat where
  toSound := sound_empty kind cat
  present := by
    intro _ i hi
    simp [members, entries_empty] at hi

theorem Attended.append (h : c.Attended .lenient cat) {e : Entry} (he : cat.knows e.item) :
    (c.append e).Attended .lenient cat where
  toSound := h.toSound.append he
  present := by
    intro _ i hi
    rw [members_append, List.mem_append, List.mem_singleton] at hi
    rw [mem_active_append]
    rcases hi with hi | rfl
    · exact Or.inr (h.present rfl i hi)
    · exact Or.inl rfl

theorem Attended.image {f : ItemId → ItemId} (h : c.Attended kind cat)
    (hi : Image f cat cat' c d) : d.Attended kind cat' where
  toSound := h.toSound.image hi
  present := by
    intro hk j hj
    rw [hi.members_eq] at hj
    obtain ⟨i, hm, rfl⟩ := List.mem_map.mp hj
    exact (hi.active _).mpr ⟨i, h.known i hm, h.present hk i hm, rfl⟩

end Contents

theorem keeps_attended (allowed : Registry → Action → Prop) :
    Keeps allowed Contents.Attended where
  empty := Contents.attended_empty
  append := fun _ _ _ he h => h.append he
  change := fun _ _ _ hcd h => ⟨h.toSound.change hcd, fun hk => nomatch hk⟩
  catalogue := fun _ _ _ _ hk h => ⟨h.toSound.mono fun i hi => (hk i hi).1, h.present⟩
  image := fun _ _ _ _ _ _ hi h => h.image hi
  rekey := fun r _ i key _ _ _ _ _ _ h =>
    ⟨h.toSound.mono fun j hj => (Catalogue.knows_setKey r.catalogue i j key).mpr (Or.inr hj),
      h.present⟩

end KeyedColumns
