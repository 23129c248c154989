import KeyedColumns.Registry.Archive

/-!
# What is assumed of archives

An archive tracks objects: one that is met many times while collections are saved is made anew once,
and every reference to it leads there. `Archive.Tracked` names all that is assumed of an archive.
Nothing else about restoring is used to tell what a round trip comes to.
-/

namespace KeyedColumns

/-- What a list of loads puts into a slot last. -/
def lastFor {α : Type} : List (α × String) → String → Option α
  | [], _ => none
  | (x, slot) :: rest, u => (lastFor rest u).or (if slot = u then some x else none)

section

variable {α : Type} {l loads : List (α × String)} {slot u : String} {x y : α}

theorem lastFor_cons_cases (h : lastFor ((x, slot) :: l) u = some y) :
    lastFor l u = some y ∨ (lastFor l u = none ∧ slot = u ∧ x = y) := by
  rw [lastFor] at h
  cases hl : lastFor l u with
  | some z =>
    rw [hl] at h
    exact Or.inl h
  | none =>
    rw [hl, Option.none_or] at h
    split at h
    · next e => exact Or.inr ⟨rfl, e, Option.some.inj h⟩
    · cases h

theorem mem_of_lastFor (h : lastFor l u = some x) : (x, u) ∈ l := by
  induction l with
  | nil => cases h
  | cons p rest ih =>
    obtain h | ⟨-, rfl, rfl⟩ := lastFor_cons_cases h
    · exact List.mem_cons_of_mem _ (ih h)
    · exact List.mem_cons_self

theorem lastFor_eq_none (h : u ∉ loads.map (·.2)) : lastFor loads u = none := by
  cases hl : lastFor loads u with
  | none => rfl
  | some x => exact absurd (List.mem_map_of_mem (mem_of_lastFor hl)) h

theorem lastFor_of_nodup (hn : (loads.map (·.2)).Nodup) (h : (x, u) ∈ loads) :
    lastFor loads u = some x := by
  induction loads with
  | nil => cases h
  | cons p rest ih =>
    obtain ⟨y, v⟩ := p
    rw [List.map_cons, List.nodup_cons] at hn
    rw [lastFor]
    rcases List.mem_cons.mp h with e | h
    · cases e
      rw [lastFor_eq_none hn.1, Option.none_or, if_pos rfl]
    · rw [ih hn.2 h, Option.some_or]

end

/-! ## Stores that grow -/

namespace Store

theorem holds_push {α : Type} {s : Store α} {r : Ref α} (h : s.Holds r) (v : α) :
    (s.push v).Holds r := by
  unfold Holds at *
  rw [size_push]
  omega

theorem holds_push_next {α : Type} (s : Store α) (v : α) : (s.push v).Holds s.next := by
  simp [Holds, next]

variable {α : Type} [Inhabited α]

/-- Everything in the first store stands in the second, unchanged. -/
def Kept (s t : Store α) : Prop := ∀ r, s.Holds r → t.Holds r ∧ t.get r = s.get r

theorem Kept.refl (s : Store α) : s.Kept s := fun _ h => ⟨h, rfl⟩

theorem Kept.trans {s t u : Store α} (h : s.Kept t) (k : t.Kept u) : s.Kept u := by
  intro r hr
  obtain ⟨ht, hget⟩ := h r hr
  obtain ⟨hu, hget'⟩ := k r ht
  exact ⟨hu, hget'.trans hget⟩

theorem kept_push (s : Store α) (v : α) : s.Kept (s.push v) :=
  fun _ h => ⟨holds_push h v, get_push_of_holds h v⟩

/--
What was made for the parts of one kind that are met: each is new, no two are one, and its fields are
those that were saved.
-/
structure Tracked (saved old new : Store α) (met : Ref α → Prop) (image : Ref α → Ref α)
    (archived : α → α) : Prop where
  kept : old.Kept new
  fresh : ∀ q, met q → ¬ old.Holds (image q) ∧ new.Holds (image q)
  once : ∀ p q, met p → met q → image p = image q → p = q
  fields : ∀ q, met q → new.get (image q) = archived (saved.get q)

end Store

/-! ## Catalogues that grow -/

namespace Catalogue

/-- Restored items are numbered up to the count of them. -/
def Numbered (c : Catalogue) : Prop := ∀ n, c.knows (.restored n) → n ≤ c.restored

/-- Whatever is known in the first is known in the second, with the same column. -/
def Kept (c d : Catalogue) : Prop := ∀ i, c.knows i → d.knows i ∧ d.column i = c.column i

theorem Kept.refl (c : Catalogue) : c.Kept c := fun _ h => ⟨h, rfl⟩

theorem Kept.trans {c d e : Catalogue} (h : c.Kept d) (k : d.Kept e) : c.Kept e := by
  intro i hi
  obtain ⟨hd, hcol⟩ := h i hi
  obtain ⟨he, hcol'⟩ := k i hd
  exact ⟨he, hcol'.trans hcol⟩

/-- What was made for the items that are met. -/
structure Tracked (saved old new : Catalogue) (met : ItemId → Prop) (image : ItemId → ItemId) :
    Prop where
  kept : old.Kept new
  numbered : new.Numbered
  fresh : ∀ i, met i → ¬ old.knows (image i) ∧ new.knows (image i)
  once : ∀ i j, met i → met j → image i = image j → i = j
  fields : ∀ i, met i → new.column (image i) = (saved.column i).archived

end Catalogue

/-! ## Archives -/

namespace Archive

theorem mem_itemsOf {a : Archive} {c : Contents} {i : ItemId} :
    i ∈ a.itemsOf c ↔ i ∈ c.items ∨ i ∈ c.entries.map (·.item) ∨
      i ∈ c.index.byKey.pairs.map (·.2) ∨ i ∈ a.catalogue.items.filter c.active.holds := by
  simp only [itemsOf, List.mem_append, or_assoc]

/-- Collections with these parts are loaded. -/
def Met (loads : List ((Kind × Handle) × String)) (h : Handle) : Prop :=
  ∃ kind slot, ((kind, h), slot) ∈ loads

/--
The loads made `r` into `r'`: what they meet was made anew as the renaming says, the slots that were
loaded refer to it, and all else stayed.
-/
structure Tracked (a : Archive) (r : Registry) (loads : List ((Kind × Handle) × String))
    (r' : Registry) (m : Renaming) : Prop where
  items : Catalogue.Tracked a.catalogue r.catalogue r'.catalogue
    (fun i => ∃ h, Met loads h ∧ i ∈ a.itemsOf (a.contents h)) m.item
  sequences : Store.Tracked a.parts.sequences r.parts.sequences r'.parts.sequences
    (fun q => ∃ h, Met loads h ∧ h.sequence = q) m.sequence (EntrySequence.archived m.item)
  indexes : Store.Tracked a.parts.indexes r.parts.indexes r'.parts.indexes
    (fun q => ∃ h, Met loads h ∧ h.index = q) m.index (KeyIndex.archived m.item)
  actives : Store.Tracked a.parts.actives r.parts.actives r'.parts.actives
    (fun q => ∃ h, Met loads h ∧ h.active = q) m.active
    (ActiveSet.archived m.item a.catalogue.items)
  loaded : ∀ u k, lastFor loads u = some k →
    ∃ d, r'.collection? u = some d ∧ d.kind = k.1 ∧ d.handle = m.handle k.2
  others : ∀ u, lastFor loads u = none → r'.collection? u = r.collection? u

namespace Tracked

variable {a : Archive} {r r' : Registry} {loads : List ((Kind × Handle) × String)} {m : Renaming}
  {h k : Handle}

theorem holds (ht : a.Tracked r loads r' m) (hm : Met loads h) : r'.parts.Holds (m.handle h) :=
  ⟨(ht.sequences.fresh _ ⟨h, hm, rfl⟩).2, (ht.indexes.fresh _ ⟨h, hm, rfl⟩).2,
    (ht.actives.fresh _ ⟨h, hm, rfl⟩).2⟩

theorem sequence_inj (ht : a.Tracked r loads r' m) (hm : Met loads h) (hm' : Met loads k)
    (e : m.sequence h.sequence = m.sequence k.sequence) : h.sequence = k.sequence :=
  ht.sequences.once _ _ ⟨h, hm, rfl⟩ ⟨k, hm', rfl⟩ e

theorem index_inj (ht : a.Tracked r loads r' m) (hm : Met loads h) (hm' : Met loads k)
    (e : m.index h.index = m.index k.index) : h.index = k.index :=
  ht.indexes.once _ _ ⟨h, hm, rfl⟩ ⟨k, hm', rfl⟩ e

theorem active_inj (ht : a.Tracked r loads r' m) (hm : Met loads h) (hm' : Met loads k)
    (e : m.active h.active = m.active k.active) : h.active = k.active :=
  ht.actives.once _ _ ⟨h, hm, rfl⟩ ⟨k, hm', rfl⟩ e

theorem handle_inj (ht : a.Tracked r loads r' m) (hm : Met loads h) (hm' : Met loads k)
    (e : m.handle h = m.handle k) : h = k := by
  have hs := ht.sequence_inj hm hm' (congrArg Handle.sequence e)
  have hi := ht.index_inj hm hm' (congrArg Handle.index e)
  have ha := ht.active_inj hm hm' (congrArg Handle.active e)
  cases h
  cases k
  simp_all

end Tracked

end Archive

/-! ## Saving and loading -/

namespace Registry

variable {r r' : Registry} {saved restored : List String} {m : Renaming} {u t : String}

theorem collections_save (h : (r.save saved).collections.length = saved.length) :
    ∃ cs : List Collection, saved.map r.collection? = cs.map some ∧
      (r.save saved).collections = cs.map fun c => (c.kind, c.handle) := by
  refine ⟨saved.filterMap r.collection?, ?_, rfl⟩
  have hlen : (saved.filterMap r.collection?).length = saved.length := by
    simpa [save] using h
  clear h
  induction saved with
  | nil => rfl
  | cons t rest ih =>
    cases ht : r.collection? t with
    | none =>
      have hle := List.length_filterMap_le r.collection? rest
      rw [List.filterMap_cons_none ht, List.length_cons] at hlen
      omega
    | some c =>
      rw [List.filterMap_cons_some ht, List.length_cons, List.length_cons] at hlen
      rw [List.map_cons, List.filterMap_cons_some ht, List.map_cons, ht, ih (by omega)]

theorem lastFor_zip {β : Type} (f : Collection → β) {saved : List String} {cs : List Collection}
    (h : saved.map r.collection? = cs.map some) (slots : List String) (u : String) :
    lastFor ((cs.map f).zip slots) u =
      (lastFor (saved.zip slots) u).bind fun t => (r.collection? t).map f := by
  induction saved generalizing cs slots with
  | nil =>
    cases cs with
    | nil => rfl
    | cons c cs => cases h
  | cons t rest ih =>
    cases cs with
    | nil => cases h
    | cons c cs =>
      rw [List.map_cons, List.map_cons, List.cons.injEq] at h
      cases slots with
      | nil => rfl
      | cons slot slots =>
        simp only [List.map_cons, List.zip_cons_cons, lastFor, ih h.2]
        cases hl : lastFor (rest.zip slots) u with
        | none => by_cases hu : slot = u <;> simp [hu, h.1]
        | some t' =>
          -- What is loaded later was saved too, so it wins on both sides.
          have hm : t' ∈ rest := (List.of_mem_zip (mem_of_lastFor hl)).1
          have hmc : r.collection? t' ∈ cs.map some := h.2 ▸ List.mem_map_of_mem hm
          obtain ⟨c', -, hc'⟩ := List.mem_map.mp hmc
          simp [← hc']

/-- The slots were saved, all of them, and their archive was loaded into others: `r` became `r'`. -/
structure Reloaded (r : Registry) (saved restored : List String) (r' : Registry) (m : Renaming) :
    Prop where
  complete : (r.save saved).collections.length = saved.length
  tracked : (r.save saved).Tracked r ((r.save saved).collections.zip restored) r' m

namespace Reloaded

/-- The collections that a round trip loads have these parts. -/
def Met (r : Registry) (saved restored : List String) (h : Handle) : Prop :=
  Archive.Met ((r.save saved).collections.zip restored) h

theorem loaded (h : r.Reloaded saved restored r' m)
    (hu : lastFor (saved.zip restored) u = some t) : ∃ c d, r.collection? t = some c ∧
      Met r saved restored c.handle ∧ r'.collection? u = some d ∧ d.kind = c.kind ∧
      d.handle = m.handle c.handle := by
  obtain ⟨cs, hcs, hcoll⟩ := collections_save h.complete
  have hm : t ∈ saved := (List.of_mem_zip (mem_of_lastFor hu)).1
  have hmc : r.collection? t ∈ cs.map some := hcs ▸ List.mem_map_of_mem hm
  obtain ⟨c, -, hc⟩ := List.mem_map.mp hmc
  have hlast : lastFor ((r.save saved).collections.zip restored) u = some (c.kind, c.handle) := by
    rw [hcoll, lastFor_zip _ hcs, hu, Option.bind_some, ← hc, Option.map_some]
  obtain ⟨d, hd, hk, hh⟩ := h.tracked.loaded u _ hlast
  exact ⟨c, d, hc.symm, ⟨_, u, mem_of_lastFor hlast⟩, hd, hk, hh⟩

theorem others (h : r.Reloaded saved restored r' m) (hu : lastFor (saved.zip restored) u = none) :
    r'.collection? u = r.collection? u := by
  obtain ⟨cs, hcs, hcoll⟩ := collections_save h.complete
  refine h.tracked.others u ?_
  rw [hcoll, lastFor_zip _ hcs, hu, Option.bind_none]

/-- A slot holds what it held, or the image of what the slot held that was loaded into it. -/
theorem held_cases (h : r.Reloaded saved restored r' m) {d : Collection}
    (hd : r'.collection? u = some d) :
    (∃ t c, lastFor (saved.zip restored) u = some t ∧ r.collection? t = some c ∧
      Met r saved restored c.handle ∧ d.kind = c.kind ∧ d.handle = m.handle c.handle) ∨
      (lastFor (saved.zip restored) u = none ∧ r.collection? u = some d) := by
  cases hu : lastFor (saved.zip restored) u with
  | none => exact Or.inr ⟨rfl, (h.others hu).symm.trans hd⟩
  | some t =>
    obtain ⟨c, d', hc, hm, hd', hk, hh⟩ := h.loaded hu
    obtain rfl := Option.some.inj (hd.symm.trans hd')
    exact Or.inl ⟨t, c, rfl, hc, hm, hk, hh⟩

end Reloaded

end Registry

end KeyedColumns
