import KeyedColumns.Proofs.Index
import KeyedColumns.Proofs.Tracking

/-!
# Restoring as a renaming

While an archive is being restored, the tables of what has been restored are one-to-one, lead to new
items and parts only, and each restored part is the saved one with its items renamed. `Restoring` says
so, and every step of restoring keeps it.
-/

namespace KeyedColumns

namespace Dict

variable {κ α : Type} [DecidableEq κ]

/-- What is under a key in the first stands there in the second as well. -/
def Sub (d e : Dict κ α) : Prop := ∀ k v, d.find? k = some v → e.find? k = some v

theorem Sub.refl (d : Dict κ α) : d.Sub d := fun _ _ h => h

theorem Sub.trans {d e f : Dict κ α} (h : d.Sub e) (k : e.Sub f) : d.Sub f :=
  fun i v hv => k i v (h i v hv)

theorem Sub.contains {d e : Dict κ α} (h : d.Sub e) {k : κ} (hk : d.contains k) : e.contains k := by
  obtain ⟨v, hv⟩ := contains_iff.mp hk
  exact contains_iff.mpr ⟨v, h k v hv⟩

theorem find?_eq_none_of_not_contains {d : Dict κ α} {k : κ} (h : ¬ d.contains k) :
    d.find? k = none := by
  unfold Dict.contains at h
  simpa using h

theorem sub_put {d : Dict κ α} {k : κ} (h : ¬ d.contains k) (v : α) : d.Sub (d.put k v) := by
  intro j w hj
  rw [find?_put, if_neg]
  · exact hj
  · intro e
    subst e
    rw [find?_eq_none_of_not_contains h] at hj
    cases hj

theorem contains_put (d : Dict κ α) (k : κ) (v : α) (j : κ) :
    (d.put k v).contains j ↔ k = j ∨ d.contains j := by
  unfold Dict.contains
  rw [find?_put]
  split <;> simp_all

theorem find?_getD {d : Dict κ κ} {k : κ} (h : d.contains k) :
    d.find? k = some ((d.find? k).getD k) := by
  obtain ⟨v, hv⟩ := contains_iff.mp h
  rw [hv]
  rfl

theorem getD_inj {d : Dict κ κ} (hd : ∀ j k v, d.find? j = some v → d.find? k = some v → j = k)
    {j k : κ} (hj : d.contains j) (hk : d.contains k) :
    (d.find? j).getD j = (d.find? k).getD k ↔ j = k := by
  constructor
  · intro e
    exact hd j k _ (find?_getD hj) ((find?_getD hk).trans (congrArg some e.symm))
  · intro e
    rw [e]

end Dict

/-! ## One kind of part -/

/-- The image of an item under a table of restored items. -/
def imageIn (items : Dict ItemId ItemId) (i : ItemId) : ItemId := (items.find? i).getD i

theorem imageIn_eq {items : Dict ItemId ItemId} {i j : ItemId} (h : items.find? i = some j) :
    imageIn items i = j := by
  unfold imageIn
  rw [h]
  rfl

theorem imageIn_sub {items more : Dict ItemId ItemId} (h : items.Sub more) {i : ItemId}
    (hi : items.contains i) : imageIn more i = imageIn items i := by
  obtain ⟨j, hj⟩ := Dict.contains_iff.mp hi
  rw [imageIn_eq hj, imageIn_eq (h i j hj)]

/-- How a kind of part depends on items: which it mentions, and what it is with others in their place. -/
structure PartShape (α : Type) where
  mentions : α → ItemId → Prop
  rename : (ItemId → ItemId) → α → α
  rename_congr : ∀ (f g : ItemId → ItemId) (v : α), (∀ i, mentions v i → f i = g i) →
    rename f v = rename g v

/-- The state of one store while parts are restored into it; `table` tells what came of which. -/
structure PartsRestored {α : Type} [Inhabited α] (shape : PartShape α) (items : Dict ItemId ItemId)
    (saved old new : Store α) (table : Dict (Ref α) (Ref α)) : Prop where
  kept : old.Kept new
  fresh : ∀ q q', table.find? q = some q' → ¬ old.Holds q' ∧ new.Holds q'
  injective : ∀ p q q', table.find? p = some q' → table.find? q = some q' → p = q
  mentioned : ∀ q, table.contains q → ∀ i, shape.mentions (saved.get q) i → items.contains i
  value : ∀ q q', table.find? q = some q' →
    new.get q' = shape.rename (imageIn items) (saved.get q)

namespace PartsRestored

variable {α : Type} [Inhabited α] {shape : PartShape α} {items more : Dict ItemId ItemId}
  {saved old new : Store α} {table : Dict (Ref α) (Ref α)}

theorem start (store : Store α) : PartsRestored shape items saved store store Dict.empty where
  kept := Store.Kept.refl store
  fresh := by simp
  injective := by simp
  mentioned := by simp [Dict.contains]
  value := by simp

/-- Restoring further items changes nothing for the parts that have been restored. -/
theorem moreItems (h : PartsRestored shape items saved old new table) (hs : items.Sub more) :
    PartsRestored shape more saved old new table where
  kept := h.kept
  fresh := h.fresh
  injective := h.injective
  mentioned := fun q hq i hi => hs.contains (h.mentioned q hq i hi)
  value := by
    intro q q' hq
    rw [h.value q q' hq]
    refine shape.rename_congr _ _ _ fun i hi => ?_
    exact (imageIn_sub hs (h.mentioned q (Dict.contains_iff.mpr ⟨q', hq⟩) i hi)).symm

theorem restore (h : PartsRestored shape items saved old new table) {q : Ref α}
    (hi : ∀ i, shape.mentions (saved.get q) i → items.contains i) :
    PartsRestored shape items saved old (new.push (shape.rename (imageIn items) (saved.get q)))
      (table.put q new.next) where
  kept := h.kept.trans (new.kept_push _)
  fresh := by
    intro p p' hp
    rw [Dict.find?_put] at hp
    split at hp
    · cases hp
      exact ⟨fun ho => new.not_holds_next (h.kept _ ho).1, new.holds_push_next _⟩
    · exact ⟨(h.fresh p p' hp).1, Store.holds_push (h.fresh p p' hp).2 _⟩
  injective := by
    intro p r p' hp hr
    rw [Dict.find?_put] at hp hr
    split at hp <;> split at hr
    · next e₁ e₂ => exact e₁.symm.trans e₂
    · cases hp
      exact absurd (h.fresh r _ hr).2 new.not_holds_next
    · cases hr
      exact absurd (h.fresh p _ hp).2 new.not_holds_next
    · exact h.injective p r p' hp hr
  mentioned := by
    intro p hp i him
    rcases (Dict.contains_put table q new.next p).mp hp with rfl | hp
    · exact hi i him
    · exact h.mentioned p hp i him
  value := by
    intro p p' hp
    rw [Dict.find?_put] at hp
    split at hp
    · next e =>
      cases hp
      subst e
      exact Store.get_push_next new _
    · rw [Store.get_push_of_holds (h.fresh p p' hp).2]
      exact h.value p p' hp

theorem tracked (h : PartsRestored shape items saved old new table) {met : Ref α → Prop}
    (hmet : ∀ q, met q → table.contains q) :
    Store.Tracked saved old new met (fun q => (table.find? q).getD q)
      (shape.rename (imageIn items)) where
  kept := h.kept
  fresh := fun q hq => h.fresh q _ (Dict.find?_getD (hmet q hq))
  once := fun p q hp hq e => (Dict.getD_inj h.injective (hmet p hp) (hmet q hq)).mp e
  fields := fun q hq => h.value q _ (Dict.find?_getD (hmet q hq))

end PartsRestored

/-! ## Items -/

namespace Catalogue

theorem knows_restore (c : Catalogue) (column : Column) (i : ItemId) :
    (c.restore column).knows i ↔ c.nextRestored = i ∨ c.knows i :=
  Dict.contains_put c.columns c.nextRestored column i

theorem knows_setKey (c : Catalogue) (i j : ItemId) (key : String) :
    (c.setKey i key).knows j ↔ i = j ∨ c.knows j :=
  Dict.contains_put c.columns i _ j

theorem knows_iff_mem_items {c : Catalogue} {i : ItemId} : c.knows i ↔ i ∈ c.items :=
  Dict.contains_iff_mem_keys

theorem Numbered.next_not_known {c : Catalogue} (h : c.Numbered) : ¬ c.knows c.nextRestored := by
  intro hk
  have := h _ hk
  omega

theorem Numbered.restore {c : Catalogue} (h : c.Numbered) (column : Column) :
    (c.restore column).Numbered := by
  intro n hn
  show n ≤ c.restored + 1
  rcases (knows_restore c column _).mp hn with e | hn
  · cases e
    exact Nat.le_refl _
  · have := h n hn
    omega

theorem Numbered.kept_restore {c : Catalogue} (h : c.Numbered) (column : Column) :
    c.Kept (c.restore column) := by
  intro i hi
  refine ⟨(knows_restore c column i).mpr (Or.inr hi), ?_⟩
  rw [column_restore, if_neg]
  intro e
  subst e
  exact h.next_not_known hi

end Catalogue

/-- The catalogue while items are restored into it; `table` tells what came of which. -/
structure ItemsRestored (saved old new : Catalogue) (table : Dict ItemId ItemId) : Prop where
  kept : old.Kept new
  numbered : new.Numbered
  fresh : ∀ i j, table.find? i = some j → ¬ old.knows j ∧ new.knows j
  injective : ∀ i j k, table.find? i = some k → table.find? j = some k → i = j
  column : ∀ i j, table.find? i = some j → new.column j = (saved.column i).archived

namespace ItemsRestored

variable {saved old new : Catalogue} {table : Dict ItemId ItemId}

theorem start {c : Catalogue} (h : c.Numbered) : ItemsRestored saved c c Dict.empty where
  kept := Catalogue.Kept.refl c
  numbered := h
  fresh := by simp
  injective := by simp
  column := by simp

theorem restore (h : ItemsRestored saved old new table) (i : ItemId) :
    ItemsRestored saved old (new.restore (saved.column i).archived) (table.put i new.nextRestored) where
  kept := h.kept.trans (h.numbered.kept_restore _)
  numbered := h.numbered.restore _
  fresh := by
    intro j k hj
    rw [Catalogue.knows_restore]
    rw [Dict.find?_put] at hj
    split at hj
    · cases hj
      exact ⟨fun ho => h.numbered.next_not_known (h.kept _ ho).1, Or.inl rfl⟩
    · exact ⟨(h.fresh j k hj).1, Or.inr (h.fresh j k hj).2⟩
  injective := by
    intro j l k hj hl
    rw [Dict.find?_put] at hj hl
    split at hj <;> split at hl
    · next e₁ e₂ => exact e₁.symm.trans e₂
    · cases hj
      exact absurd (h.fresh l _ hl).2 h.numbered.next_not_known
    · cases hl
      exact absurd (h.fresh j _ hj).2 h.numbered.next_not_known
    · exact h.injective j l k hj hl
  column := by
    intro j k hj
    rw [Dict.find?_put] at hj
    split at hj
    · next e =>
      cases hj
      subst e
      rw [Catalogue.column_restore, if_pos rfl]
    · rw [(h.numbered.kept_restore _ k (h.fresh j k hj).2).2]
      exact h.column j k hj

theorem tracked (h : ItemsRestored saved old new table) {met : ItemId → Prop}
    (hmet : ∀ i, met i → table.contains i) :
    Catalogue.Tracked saved old new met (imageIn table) where
  kept := h.kept
  numbered := h.numbered
  fresh := fun i hi => h.fresh i _ (Dict.find?_getD (hmet i hi))
  once := fun i j hi hj e => (Dict.getD_inj h.injective (hmet i hi) (hmet j hj)).mp e
  fields := fun i hi => h.column i _ (Dict.find?_getD (hmet i hi))

end ItemsRestored

end KeyedColumns
