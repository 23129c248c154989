import KeyedColumns.Proofs.Restoration

/-!
# The steps of restoring

Restoring an archive goes collection by collection, item by item, part by part. Each step keeps
`Restoring`, and the tables only grow. So an archive that is restored tracks what it holds.
-/

namespace KeyedColumns

namespace Restoration

/-! ## Shapes of the three parts -/

def sequenceShape : PartShape EntrySequence where
  mentions s i := i ∈ s.entries.map (·.item)
  rename := EntrySequence.archived
  rename_congr := by
    intro f g s h
    refine congrArg EntrySequence.mk (List.map_congr_left fun e he => ?_)
    rw [Entry.archived, Entry.archived, h e.item (List.mem_map_of_mem he)]

def indexShape : PartShape KeyIndex where
  mentions x i := i ∈ x.byPosition ∨ i ∈ x.byKey.pairs.map (·.2)
  rename := KeyIndex.archived
  rename_congr := by
    intro f g x h
    have hkey : x.byKey.mapValues f = x.byKey.mapValues g := by
      refine congrArg Dict.mk (List.map_congr_left fun p hp => ?_)
      rw [h p.2 (Or.inr (List.mem_map_of_mem hp))]
    have hpos : x.byPosition.map f = x.byPosition.map g :=
      List.map_congr_left fun i hi => h i (Or.inl hi)
    rw [KeyIndex.archived, KeyIndex.archived, hkey, hpos]

/-- Only the items of a catalogue are looked for in a set. -/
def activeShape (items : List ItemId) : PartShape ActiveSet where
  mentions s i := i ∈ items.filter s.holds
  rename f := ActiveSet.archived f items
  rename_congr := by
    intro f g s h
    exact congrArg ActiveSet.ofList (List.map_congr_left h)

/-- What holds while the archive `a` is being restored into the registry `r`. -/
structure Restoring (a : Archive) (r : Registry) (s : Restoration) : Prop where
  items : ItemsRestored a.catalogue r.catalogue s.registry.catalogue s.items
  sequences : PartsRestored sequenceShape s.items a.parts.sequences r.parts.sequences
    s.registry.parts.sequences s.sequences
  indexes : PartsRestored indexShape s.items a.parts.indexes r.parts.indexes
    s.registry.parts.indexes s.indexes
  actives : PartsRestored (activeShape a.catalogue.items) s.items a.parts.actives r.parts.actives
    s.registry.parts.actives s.actives

/-- What has been restored stays restored, as the same. -/
structure Grown (s t : Restoration) : Prop where
  items : s.items.Sub t.items
  sequences : s.sequences.Sub t.sequences
  indexes : s.indexes.Sub t.indexes
  actives : s.actives.Sub t.actives

theorem Grown.refl (s : Restoration) : s.Grown s :=
  ⟨Dict.Sub.refl _, Dict.Sub.refl _, Dict.Sub.refl _, Dict.Sub.refl _⟩

theorem Grown.trans {s t u : Restoration} (h : s.Grown t) (k : t.Grown u) : s.Grown u :=
  ⟨h.items.trans k.items, h.sequences.trans k.sequences, h.indexes.trans k.indexes,
    h.actives.trans k.actives⟩

variable {a : Archive} {r : Registry} {s : Restoration}

theorem Restoring.start (a : Archive) (hr : r.catalogue.Numbered) : Restoring a r (start r) where
  items := .start hr
  sequences := .start _
  indexes := .start _
  actives := .start _

/-! ## One item after the other -/

theorem restoreItem_spec (hs : Restoring a r s) (i : ItemId) :
    Restoring a r (restoreItem a s i) ∧ s.Grown (restoreItem a s i) ∧
      (restoreItem a s i).items.contains i := by
  unfold restoreItem
  split
  · next hi => exact ⟨hs, Grown.refl s, hi⟩
  · next hi =>
    have hsub := Dict.sub_put hi s.registry.catalogue.nextRestored
    exact ⟨⟨hs.items.restore i, hs.sequences.moreItems hsub, hs.indexes.moreItems hsub,
        hs.actives.moreItems hsub⟩,
      ⟨hsub, Dict.Sub.refl _, Dict.Sub.refl _, Dict.Sub.refl _⟩,
      (Dict.contains_put _ _ _ _).mpr (Or.inl rfl)⟩

/-- Restores items one after the other. -/
def restoreItems (a : Archive) (s : Restoration) (is : List ItemId) : Restoration :=
  is.foldl (restoreItem a) s

theorem restoreItems_spec (hs : Restoring a r s) (is : List ItemId) :
    Restoring a r (restoreItems a s is) ∧ s.Grown (restoreItems a s is) ∧
      ∀ i ∈ is, (restoreItems a s is).items.contains i := by
  induction is generalizing s with
  | nil => exact ⟨hs, Grown.refl s, by simp⟩
  | cons j rest ih =>
    obtain ⟨hfirst, hg, hj⟩ := restoreItem_spec hs j
    obtain ⟨hrest, hg', hin⟩ := ih hfirst
    refine ⟨hrest, hg.trans hg', fun i hi => ?_⟩
    rcases List.mem_cons.mp hi with rfl | hi
    · exact hg'.items.contains hj
    · exact hin i hi

/-! ## One part of each kind -/

theorem restoreSequence_spec (hs : Restoring a r s) {q : Ref EntrySequence}
    (hi : ∀ i, sequenceShape.mentions (a.parts.sequences.get q) i → s.items.contains i) :
    Restoring a r (restoreSequence a s q) ∧ s.Grown (restoreSequence a s q) ∧
      (restoreSequence a s q).sequences.contains q := by
  unfold restoreSequence
  split
  · next hq => exact ⟨hs, Grown.refl s, hq⟩
  · next hq =>
    exact ⟨⟨hs.items, hs.sequences.restore hi, hs.indexes, hs.actives⟩,
      ⟨Dict.Sub.refl _, Dict.sub_put hq _, Dict.Sub.refl _, Dict.Sub.refl _⟩,
      (Dict.contains_put _ _ _ _).mpr (Or.inl rfl)⟩

theorem restoreIndex_spec (hs : Restoring a r s) {q : Ref KeyIndex}
    (hi : ∀ i, indexShape.mentions (a.parts.indexes.get q) i → s.items.contains i) :
    Restoring a r (restoreIndex a s q) ∧ s.Grown (restoreIndex a s q) ∧
      (restoreIndex a s q).indexes.contains q := by
  unfold restoreIndex
  split
  · next hq => exact ⟨hs, Grown.refl s, hq⟩
  · next hq =>
    exact ⟨⟨hs.items, hs.sequences, hs.indexes.restore hi, hs.actives⟩,
      ⟨Dict.Sub.refl _, Dict.Sub.refl _, Dict.sub_put hq _, Dict.Sub.refl _⟩,
      (Dict.contains_put _ _ _ _).mpr (Or.inl rfl)⟩

theorem restoreActive_spec (hs : Restoring a r s) {q : Ref ActiveSet}
    (hi : ∀ i, (activeShape a.catalogue.items).mentions (a.parts.actives.get q) i →
      s.items.contains i) :
    Restoring a r (restoreActive a s q) ∧ s.Grown (restoreActive a s q) ∧
      (restoreActive a s q).actives.contains q := by
  unfold restoreActive
  split
  · next hq => exact ⟨hs, Grown.refl s, hq⟩
  · next hq =>
    exact ⟨⟨hs.items, hs.sequences, hs.indexes, hs.actives.restore hi⟩,
      ⟨Dict.Sub.refl _, Dict.Sub.refl _, Dict.Sub.refl _, Dict.sub_put hq _⟩,
      (Dict.contains_put _ _ _ _).mpr (Or.inl rfl)⟩

/-! ## The parts of a collection -/

/-- Everything that a saved collection holds and mentions has been restored. -/
structure Covers (a : Archive) (s : Restoration) (h : Handle) : Prop where
  items : ∀ i ∈ a.itemsOf (a.contents h), s.items.contains i
  sequence : s.sequences.contains h.sequence
  index : s.indexes.contains h.index
  active : s.actives.contains h.active

theorem Covers.grown {t : Restoration} {h : Handle} (hc : Covers a s h) (hg : s.Grown t) :
    Covers a t h :=
  ⟨fun i hi => hg.items.contains (hc.items i hi), hg.sequences.contains hc.sequence,
    hg.indexes.contains hc.index, hg.actives.contains hc.active⟩

theorem find?_of_sub {α : Type} {d e : Dict (Ref α) (Ref α)} (hs : d.Sub e) {q : Ref α}
    (hq : d.contains q) : e.find? q = d.find? q := by
  obtain ⟨v, hv⟩ := Dict.contains_iff.mp hq
  rw [hv, hs q v hv]

theorem Covers.handle_grown {t : Restoration} {h : Handle} (hc : Covers a s h)
    (hg : s.Grown t) : t.images.handle h = s.images.handle h := by
  unfold Renaming.handle images
  simp only [find?_of_sub hg.sequences hc.sequence, find?_of_sub hg.indexes hc.index,
    find?_of_sub hg.actives hc.active]

theorem restoreParts_spec (hs : Restoring a r s) (h : Handle) :
    Restoring a r (restoreParts a s h) ∧ s.Grown (restoreParts a s h) ∧
      Covers a (restoreParts a s h) h := by
  obtain ⟨hr₁, hg₁, hi₁⟩ := restoreItems_spec hs (a.itemsOf (a.contents h))
  obtain ⟨hr₂, hg₂, hc₂⟩ := restoreSequence_spec (q := h.sequence) hr₁ fun i hi =>
    hi₁ i (Archive.mem_itemsOf.mpr (Or.inr (Or.inl hi)))
  have hi₂ := fun i hi => hg₂.items.contains (hi₁ i hi)
  obtain ⟨hr₃, hg₃, hc₃⟩ := restoreIndex_spec (q := h.index) hr₂ fun i hi =>
    hi₂ i (Archive.mem_itemsOf.mpr (hi.imp_right fun hi => Or.inr (Or.inl hi)))
  have hi₃ := fun i hi => hg₃.items.contains (hi₂ i hi)
  obtain ⟨hr₄, hg₄, hc₄⟩ := restoreActive_spec (q := h.active) hr₃ fun i hi =>
    hi₃ i (Archive.mem_itemsOf.mpr (Or.inr (Or.inr (Or.inr hi))))
  exact ⟨hr₄, hg₁.trans (hg₂.trans (hg₃.trans hg₄)), fun i hi => hg₄.items.contains (hi₃ i hi),
    hg₄.sequences.contains (hg₃.sequences.contains hc₂), hg₄.indexes.contains hc₃, hc₄⟩

/-! ## What restoring does not touch -/

/-- A property of registries that new items and parts leave alone. -/
structure WithstandsParts (P : Registry → Prop) : Prop where
  catalogue : ∀ r catalogue, P r → P { r with catalogue }
  parts : ∀ r parts, P r → P { r with parts }

/-- A property of registries that collections loaded into slots leave alone, too. -/
structure Withstands (P : Registry → Prop) : Prop extends WithstandsParts P where
  hold : ∀ r slot kind handle, P r → P (r.hold slot (loadedAs (r.collection? slot) kind handle))

variable {P : Registry → Prop}

theorem WithstandsParts.restoreItems (hP : WithstandsParts P) (a : Archive) {s : Restoration}
    (h : P s.registry) (is : List ItemId) : P (restoreItems a s is).registry := by
  induction is generalizing s with
  | nil => exact h
  | cons i rest ih =>
    refine ih (s := restoreItem a s i) ?_
    unfold restoreItem
    split
    · exact h
    · exact hP.catalogue _ _ h

theorem WithstandsParts.restoreParts (hP : WithstandsParts P) (a : Archive) {s : Restoration}
    (h : P s.registry) (k : Handle) : P (restoreParts a s k).registry := by
  have hsequence : ∀ {s : Restoration} q, P s.registry → P (restoreSequence a s q).registry := by
    intro s q h
    unfold restoreSequence
    split
    · exact h
    · exact hP.parts _ _ h
  have hindex : ∀ {s : Restoration} q, P s.registry → P (restoreIndex a s q).registry := by
    intro s q h
    unfold restoreIndex
    split
    · exact h
    · exact hP.parts _ _ h
  have hactive : ∀ {s : Restoration} q, P s.registry → P (restoreActive a s q).registry := by
    intro s q h
    unfold restoreActive
    split
    · exact h
    · exact hP.parts _ _ h
  exact hactive _ (hindex _ (hsequence _ (hP.restoreItems a h _)))

theorem slots_restoreParts (a : Archive) (s : Restoration) (h : Handle) :
    (restoreParts a s h).registry.slots = s.registry.slots := by
  have hP : WithstandsParts (·.slots = s.registry.slots) := ⟨fun _ _ h => h, fun _ _ h => h⟩
  exact hP.restoreParts a rfl h

theorem Withstands.restoreInto (hP : Withstands P) (a : Archive) {s : Restoration}
    (h : P s.registry) (kind : Kind) (k : Handle) (slot : String) :
    P (restoreInto a s kind k slot).registry := by
  have hparts := hP.restoreParts a h k
  unfold Restoration.restoreInto
  generalize Restoration.restoreParts a s k = t at hparts
  exact hP.hold t.registry slot kind (t.images.handle k) hparts

theorem Withstands.restoreAll (hP : Withstands P) (a : Archive) {s : Restoration}
    (h : P s.registry) (pairs : List ((Kind × Handle) × String)) :
    P (restoreAll a s pairs).registry := by
  induction pairs generalizing s with
  | nil => exact h
  | cons p rest ih =>
    obtain ⟨⟨kind, k⟩, slot⟩ := p
    have hfirst := ih (hP.restoreInto a h kind k slot)
    rw [Restoration.restoreAll]
    exact hfirst

/-! ## Slots -/

theorem handle_loadedAs (before : Option Collection) (kind : Kind) (handle : Handle) :
    (loadedAs before kind handle).handle = handle := by
  cases before <;> rfl

theorem kind_loadedAs {before : Option Collection} {kind : Kind} (handle : Handle)
    (h : (before.map (·.kind)).getD kind = kind) : (loadedAs before kind handle).kind = kind := by
  cases before with
  | none => rfl
  | some c => exact h

theorem restoreInto_spec (hs : Restoring a r s) (kind : Kind) (h : Handle) (slot : String) :
    Restoring a r (restoreInto a s kind h slot) ∧ s.Grown (restoreInto a s kind h slot) ∧
      Covers a (restoreInto a s kind h slot) h ∧
      ∀ u, (restoreInto a s kind h slot).registry.collection? u =
        if slot = u then
          some (loadedAs (s.registry.collection? slot) kind
            ((restoreInto a s kind h slot).images.handle h))
        else s.registry.collection? u := by
  obtain ⟨hr, hg, hc⟩ := restoreParts_spec hs h
  have hslots := slots_restoreParts a s h
  unfold restoreInto
  generalize restoreParts a s h = t at hr hg hc hslots
  have hcoll : ∀ v, t.registry.collection? v = s.registry.collection? v := by
    intro v
    unfold Registry.collection?
    rw [hslots]
  refine ⟨⟨hr.items, hr.sequences, hr.indexes, hr.actives⟩,
    ⟨hg.items, hg.sequences, hg.indexes, hg.actives⟩,
    ⟨hc.items, hc.sequence, hc.index, hc.active⟩, ?_⟩
  intro u
  show (t.registry.slots.put slot _).find? u = _
  rw [Dict.find?_put, hcoll slot]
  split
  · rfl
  · exact hcoll u

theorem restoreAll_spec (loads : List ((Kind × Handle) × String)) (hs : Restoring a r s)
    {kinds : Dict String Kind} (hk : ∀ u, kinds.find? u = (s.registry.collection? u).map (·.kind))
    (hf : Registry.fits kinds (loads.map fun p => (p.1.1, p.2))) :
    Restoring a r (restoreAll a s loads) ∧ s.Grown (restoreAll a s loads) ∧
      (∀ h, Archive.Met loads h → Covers a (restoreAll a s loads) h) ∧
      (∀ u, lastFor loads u = none →
        (restoreAll a s loads).registry.collection? u = s.registry.collection? u) ∧
      ∀ u k, lastFor loads u = some k → ∃ d,
        (restoreAll a s loads).registry.collection? u = some d ∧ d.kind = k.1 ∧
          d.handle = (restoreAll a s loads).images.handle k.2 := by
  induction loads generalizing s kinds with
  | nil => exact ⟨hs, Grown.refl s, by simp [Archive.Met], fun u _ => rfl, by simp [lastFor]⟩
  | cons p rest ih =>
    obtain ⟨⟨kind, h⟩, slot⟩ := p
    simp only [List.map_cons, Registry.fits, Bool.and_eq_true, decide_eq_true_eq] at hf
    obtain ⟨hr, hg, hc, hslots⟩ := restoreInto_spec hs kind h slot
    rw [hk slot] at hf
    -- The kinds that were checked are those that stand in the slots by now.
    have hkinds : ∀ u, (kinds.addNew slot kind).find? u =
        ((restoreInto a s kind h slot).registry.collection? u).map (·.kind) := by
      intro u
      rw [Dict.find?_addNew, hslots u]
      split
      · rw [hk slot, hf.1, Option.map_some, kind_loadedAs _ hf.1]
      · exact hk u
    obtain ⟨hr', hg', hmet, hnone, hsome⟩ := ih hr hkinds hf.2
    rw [restoreAll]
    generalize restoreInto a s kind h slot = t at hr hg hc hslots hr' hg' hmet hnone hsome
    refine ⟨hr', hg.trans hg', ?_, ?_, ?_⟩
    · rintro k ⟨kind', slot', hm⟩
      rcases List.mem_cons.mp hm with e | hm
      · cases e
        exact hc.grown hg'
      · exact hmet k ⟨kind', slot', hm⟩
    · intro u hu
      simp only [lastFor, Option.or_eq_none_iff] at hu
      have hne : ¬ slot = u := by
        intro e
        simp [e] at hu
      rw [hnone u hu.1, hslots u, if_neg hne]
    · intro u k hu
      obtain hu | ⟨hl, rfl, rfl⟩ := lastFor_cons_cases hu
      · exact hsome u k hu
      · refine ⟨_, ?_, kind_loadedAs (t.images.handle h) hf.1, ?_⟩
        · rw [hnone slot hl, hslots slot, if_pos rfl]
        · rw [handle_loadedAs, hc.handle_grown hg']

end Restoration

/-! ## The assumption holds -/

namespace Registry

variable {r : Registry}

/-- Restoring an archive tracks its objects, whatever it holds and wherever it goes. -/
theorem restore_tracked (hr : r.catalogue.Numbered) {a : Archive} {slots : List String}
    (hcan : r.canRestore a slots) :
    ∃ m, a.Tracked r (a.collections.zip slots) (r.restore a slots) m := by
  unfold canRestore at hcan
  rw [Bool.and_eq_true, List.zip_map_left] at hcan
  have hkinds : ∀ u, (r.slots.mapValues (·.kind)).find? u =
      ((Restoration.start r).registry.collection? u).map (·.kind) :=
    fun u => Dict.find?_mapValues _ _ u
  obtain ⟨hs, -, hmet, hnone, hsome⟩ :=
    Restoration.restoreAll_spec (a.collections.zip slots) (.start a hr) hkinds hcan.2
  unfold restore
  generalize Restoration.restoreAll a (.start r) (a.collections.zip slots) = s at hs hmet hnone hsome
  refine ⟨s.images, hs.items.tracked ?_, hs.sequences.tracked ?_, hs.indexes.tracked ?_,
    hs.actives.tracked ?_, hsome, hnone⟩
  · rintro i ⟨h, hm, hi⟩
    exact (hmet h hm).items i hi
  · rintro _ ⟨h, hm, rfl⟩
    exact (hmet h hm).sequence
  · rintro _ ⟨h, hm, rfl⟩
    exact (hmet h hm).index
  · rintro _ ⟨h, hm, rfl⟩
    exact (hmet h hm).active

theorem restore_reloaded (hr : r.catalogue.Numbered) {saved restored : List String}
    (hlen : (r.save saved).collections.length = saved.length)
    (hcan : r.canRestore (r.save saved) restored) :
    ∃ m, r.Reloaded saved restored (r.restore (r.save saved) restored) m := by
  obtain ⟨m, ht⟩ := restore_tracked hr hcan
  exact ⟨m, hlen, ht⟩

end Registry

end KeyedColumns
