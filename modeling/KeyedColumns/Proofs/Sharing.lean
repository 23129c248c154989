import KeyedColumns.Proofs.Lineage

/-!
# Who shares what

Collections share all of their parts or none. `Tidy` says so of a registry and its lineage, and every
step keeps it: new parts are always made three at a time, and handles are passed on whole.
-/

namespace KeyedColumns

/-- Two handles without a part in common. -/
structure Handle.Apart (h k : Handle) : Prop where
  sequence : h.sequence ≠ k.sequence
  index : h.index ≠ k.index
  active : h.active ≠ k.active

theorem Handle.Apart.symm {h k : Handle} (a : h.Apart k) : k.Apart h :=
  ⟨a.sequence.symm, a.index.symm, a.active.symm⟩

namespace Store

variable {α : Type}

theorem holds_set {s : Store α} {r q : Ref α} (h : s.Holds q) (v : α) : (s.set r v).Holds q := by
  unfold Holds at *
  rw [size_set]
  exact h

theorem ne_next {s : Store α} {r : Ref α} (h : s.Holds r) : r ≠ s.next := by
  intro e
  subst e
  exact s.not_holds_next h

end Store

/-! ## Parts that stay -/

namespace Parts

/-- All parts of the first are in the second, unchanged. -/
structure Kept (p q : Parts) : Prop where
  sequences : p.sequences.Kept q.sequences
  indexes : p.indexes.Kept q.indexes
  actives : p.actives.Kept q.actives

theorem Kept.refl (p : Parts) : p.Kept p :=
  ⟨Store.Kept.refl _, Store.Kept.refl _, Store.Kept.refl _⟩

theorem kept_push (p : Parts) (c : Contents) : p.Kept (p.push c) :=
  ⟨Store.kept_push _ _, Store.kept_push _ _, Store.kept_push _ _⟩

theorem Kept.holds {p q : Parts} (hk : p.Kept q) {h : Handle} (hh : p.Holds h) : q.Holds h :=
  ⟨(hk.sequences _ hh.1).1, (hk.indexes _ hh.2.1).1, (hk.actives _ hh.2.2).1⟩

theorem Kept.contents_eq {p q : Parts} (hk : p.Kept q) {h : Handle} (hh : p.Holds h) :
    q.contents h = p.contents h := by
  unfold contents
  rw [(hk.sequences _ hh.1).2, (hk.indexes _ hh.2.1).2, (hk.actives _ hh.2.2).2]

theorem holds_push_next (p : Parts) (c : Contents) : (p.push c).Holds p.next :=
  ⟨Store.holds_push_next _ _, Store.holds_push_next _ _, Store.holds_push_next _ _⟩

theorem holds_write {p : Parts} {h : Handle} (hh : p.Holds h) (k : Handle) (c : Contents) :
    (p.write k c).Holds h :=
  ⟨Store.holds_set hh.1 _, Store.holds_set hh.2.1 _, Store.holds_set hh.2.2 _⟩

theorem apart_next {p : Parts} {h : Handle} (hh : p.Holds h) : h.Apart p.next :=
  ⟨Store.ne_next hh.1, Store.ne_next hh.2.1, Store.ne_next hh.2.2⟩

theorem contents_write_of_apart (p : Parts) {h k : Handle} (a : h.Apart k) (c : Contents) :
    (p.write h c).contents k = p.contents k := by
  unfold contents write
  rw [Store.get_set_of_ne _ a.sequence, Store.get_set_of_ne _ a.index,
    Store.get_set_of_ne _ a.active]

end Parts

/-! ## The invariant -/

/-- What holds of a registry and its lineage at all times. -/
structure Tidy (r : Registry) (l : Lineage) : Prop where
  numbered : r.catalogue.Numbered
  held : ∀ s c, r.collection? s = some c → r.parts.Holds c.handle
  whole : ∀ s t c d, r.collection? s = some c → r.collection? t = some d →
    c.handle = d.handle ∨ c.handle.Apart d.handle
  kind : ∀ s c, r.collection? s = some c → c.kind = .view ∨ c.kind = l s
  line : ∀ s t c d, r.collection? s = some c → r.collection? t = some d → c.handle = d.handle →
    l s = l t

namespace Catalogue

theorem Numbered.make {c : Catalogue} (h : c.Numbered) (label : String) (column : Column) :
    (c.make label column).Numbered := by
  intro n hn
  refine h n ?_
  unfold knows Dict.contains Catalogue.make at *
  rw [Dict.find?_addNew, if_neg (by intro e; cases e)] at hn
  exact hn

theorem Numbered.setKey {c : Catalogue} (h : c.Numbered) {i : ItemId} (hi : c.knows i)
    (key : String) : (c.setKey i key).Numbered := by
  intro n hn
  rcases (knows_setKey c i _ key).mp hn with e | hn
  · rw [e] at hi
    exact h n hi
  · exact h n hn

theorem kept_make (c : Catalogue) (label : String) (column : Column) :
    c.Kept (c.make label column) := by
  intro i hi
  obtain ⟨v, hv⟩ := Dict.contains_iff.mp hi
  have hfind : (c.make label column).columns.find? i = some v := by
    unfold make
    rw [Dict.find?_addNew]
    split
    · next e => rw [e, hv, Option.getD_some]
    · exact hv
  refine ⟨Dict.contains_iff.mpr ⟨v, hfind⟩, ?_⟩
  unfold Catalogue.column
  rw [hfind, hv]

end Catalogue

variable {allowed : Registry → Action → Prop} {targets : List String} {r r' : Registry}
  {l l' : Lineage}

theorem tidy_empty (config : Log.Config) : Tidy (Registry.empty config) fun _ => .view where
  numbered := by
    intro n hn
    cases hn
  held := by
    intro s c hc
    cases hc
  whole := by
    intro s t c d hc
    cases hc
  kind := by
    intro s c hc
    cases hc
  line := by
    intro s t c d hc
    cases hc

theorem Tidy.rearranged (ht : Tidy r l) (hp : r'.parts = r.parts)
    (hcat : r'.catalogue = r.catalogue)
    (hs : ∀ t d, r'.collection? t = some d → ∃ s c, r.collection? s = some c ∧
      d.handle = c.handle ∧ (d.kind = c.kind ∨ d.kind = .view) ∧ l' t = l s) : Tidy r' l' where
  numbered := by
    rw [hcat]
    exact ht.numbered
  held := by
    intro t d hd
    obtain ⟨s, c, hc, hh, -, -⟩ := hs t d hd
    rw [hp, hh]
    exact ht.held s c hc
  whole := by
    intro t u d e hd he
    obtain ⟨s, c, hc, hh, -, -⟩ := hs t d hd
    obtain ⟨s', c', hc', hh', -, -⟩ := hs u e he
    rw [hh, hh']
    exact ht.whole s s' c c' hc hc'
  kind := by
    intro t d hd
    obtain ⟨s, c, hc, -, hk, hl⟩ := hs t d hd
    rcases hk with hk | hk
    · rw [hk, hl]
      exact ht.kind s c hc
    · exact Or.inl hk
  line := by
    intro t u d e hd he hde
    obtain ⟨s, c, hc, hh, -, hl⟩ := hs t d hd
    obtain ⟨s', c', hc', hh', -, hl'⟩ := hs u e he
    rw [hl, hl']
    exact ht.line s s' c c' hc hc' (by rw [← hh, ← hh', hde])

theorem Tidy.establish (ht : Tidy r l) (slot : String) {kind k : Kind}
    (hk : kind = .view ∨ kind = k) (context : Log.Context) (contents : Contents) :
    Tidy (r.establish slot kind context contents) (Function.update l slot k) := by
  have hfresh : ∀ s c, r.collection? s = some c → c.handle.Apart r.parts.next := fun s c hc =>
    Parts.apart_next (ht.held s c hc)
  refine ⟨ht.numbered, ?_, ?_, ?_, ?_⟩
  · intro t d hd
    rcases Registry.held_establish hd with ⟨-, rfl⟩ | ⟨-, hd'⟩
    · exact r.parts.holds_push_next contents
    · exact (r.parts.kept_push contents).holds (ht.held t d hd')
  · intro t u d e hd he
    rcases Registry.held_establish hd with ⟨-, rfl⟩ | ⟨-, hd'⟩ <;>
      rcases Registry.held_establish he with ⟨-, rfl⟩ | ⟨-, he'⟩
    · exact Or.inl rfl
    · exact Or.inr (hfresh u e he').symm
    · exact Or.inr (hfresh t d hd')
    · exact ht.whole t u d e hd' he'
  · intro t d hd
    rcases Registry.held_establish hd with ⟨rfl, rfl⟩ | ⟨hne, hd'⟩
    · rw [Function.update_self]
      exact hk
    · rw [Function.update_of_ne hne]
      exact ht.kind t d hd'
  · intro t u d e hd he hde
    rcases Registry.held_establish hd with ⟨ht', rfl⟩ | ⟨hne, hd'⟩ <;>
      rcases Registry.held_establish he with ⟨hu', rfl⟩ | ⟨hne', he'⟩
    · rw [ht', hu']
    · exact absurd (congrArg Handle.sequence hde.symm) (hfresh u e he').sequence
    · exact absurd (congrArg Handle.sequence hde) (hfresh t d hd').sequence
    · rw [Function.update_of_ne hne, Function.update_of_ne hne']
      exact ht.line t u d e hd' he' hde

theorem Tidy.write (ht : Tidy r l) (c : Collection) (contents : Contents) :
    Tidy (r.write c contents) l where
  numbered := ht.numbered
  held := fun s d hd => Parts.holds_write (ht.held s d hd) _ _
  whole := ht.whole
  kind := ht.kind
  line := ht.line

theorem Tidy.recatalogued (ht : Tidy r l) {cat : Catalogue} (hn : cat.Numbered) :
    Tidy { r with catalogue := cat } l where
  numbered := hn
  held := ht.held
  whole := ht.whole
  kind := ht.kind
  line := ht.line

/-! ## Loaded slots -/

namespace Archive.Tracked

variable {a : Archive} {loads : List ((Kind × Handle) × String)} {m : Renaming} {h k : Handle}

theorem kept (ht : a.Tracked r loads r' m) : r.parts.Kept r'.parts :=
  ⟨ht.sequences.kept, ht.indexes.kept, ht.actives.kept⟩

theorem image_apart (ht : a.Tracked r loads r' m) (hm : Met loads h) (hk : r.parts.Holds k) :
    (m.handle h).Apart k := by
  refine ⟨fun (e : m.sequence h.sequence = k.sequence) => ?_,
    fun (e : m.index h.index = k.index) => ?_, fun (e : m.active h.active = k.active) => ?_⟩
  · exact (ht.sequences.fresh _ ⟨h, hm, rfl⟩).1 (e ▸ hk.1)
  · exact (ht.indexes.fresh _ ⟨h, hm, rfl⟩).1 (e ▸ hk.2.1)
  · exact (ht.actives.fresh _ ⟨h, hm, rfl⟩).1 (e ▸ hk.2.2)

theorem apart_image (ht : a.Tracked r loads r' m) (hm : Met loads h) (hm' : Met loads k)
    (ha : h.Apart k) : (m.handle h).Apart (m.handle k) :=
  ⟨fun e => ha.sequence (ht.sequence_inj hm hm' e), fun e => ha.index (ht.index_inj hm hm' e),
    fun e => ha.active (ht.active_inj hm hm' e)⟩

end Archive.Tracked

theorem Tidy.restored (ht : Tidy r l) {saved restored : List String} {m : Renaming}
    (h : r.Reloaded saved restored r' m) :
    Tidy r' fun u => ((lastFor (saved.zip restored) u).map l).getD (l u) := by
  have hs := h.tracked
  refine ⟨hs.items.numbered, ?_, ?_, ?_, ?_⟩
  · intro u d hd
    rcases h.held_cases hd with ⟨t, c, -, hc, hm, -, hh⟩ | ⟨-, hd'⟩
    · rw [hh]
      exact hs.holds hm
    · exact hs.kept.holds (ht.held u d hd')
  · intro u v d e hd he
    rcases h.held_cases hd with ⟨t, c, -, hc, hm, -, hh⟩ | ⟨-, hd'⟩ <;>
      rcases h.held_cases he with ⟨t', c', -, hc', hm', -, hh'⟩ | ⟨-, he'⟩
    · rw [hh, hh']
      rcases ht.whole t t' c c' hc hc' with h | h
      · exact Or.inl (congrArg _ h)
      · exact Or.inr (hs.apart_image hm hm' h)
    · rw [hh]
      exact Or.inr (hs.image_apart hm (ht.held v e he'))
    · rw [hh']
      exact Or.inr (hs.image_apart hm' (ht.held u d hd')).symm
    · exact ht.whole u v d e hd' he'
  · intro u d hd
    rcases h.held_cases hd with ⟨t, c, hu, hc, -, hk, -⟩ | ⟨hu, hd'⟩
    · rw [hk, hu]
      exact ht.kind t c hc
    · rw [hu]
      exact ht.kind u d hd'
  · intro u v d e hd he hde
    rcases h.held_cases hd with ⟨t, c, hu, hc, hm, -, hh⟩ | ⟨hu, hd'⟩ <;>
      rcases h.held_cases he with ⟨t', c', hv, hc', hm', -, hh'⟩ | ⟨hv, he'⟩
    · rw [hu, hv]
      exact ht.line t t' c c' hc hc' (hs.handle_inj hm hm' (by rw [← hh, ← hh', hde]))
    · have ha := hs.image_apart hm (ht.held v e he')
      exact absurd (congrArg Handle.sequence (hh.symm.trans hde)) ha.sequence
    · have ha := hs.image_apart hm' (ht.held u d hd')
      exact absurd (congrArg Handle.sequence (hh'.symm.trans hde.symm)) ha.sequence
    · rw [hu, hv]
      exact ht.line u v d e hd' he' hde

theorem Tidy.lineage_of_kind (ht : Tidy r l) {slot : String} {c : Collection} {kind : Kind}
    (hc : r.collection? slot = some c) (hk : c.kind = kind) (hne : kind ≠ .view) :
    l slot = kind := by
  rcases ht.kind slot c hc with h | h
  · exact absurd (hk.symm.trans h) hne
  · rw [← h, hk]

/-! ## Every step, every run -/

theorem Tidy.step (ht : Tidy r l) (h : Step allowed targets r l r' l') : Tidy r' l' := by
  cases h with
  | rearranged hp hcat _ hs => exact ht.rearranged hp hcat hs
  | founded slot kind context contents _ _ =>
    exact ht.establish slot (Or.inr rfl) context contents
  | copied slot source c _ hc _ => exact ht.establish slot (ht.kind source c hc) c.context _
  | written slot c call mode d => exact ht.write c d.contents
  | made label column => exact ht.recatalogued (ht.numbered.make label column)
  | rekeyed i key hi => exact ht.recatalogued (ht.numbered.setKey hi key)
  | restored saved restored _ m h => exact ht.restored h

/-- Whatever holds at first and is kept by every step of a tidy registry holds throughout. -/
theorem Traced.holds {P : Registry → Lineage → Prop} (h : Traced allowed r l)
    (hempty : ∀ config, P (Registry.empty config) fun _ => .view)
    (hstep : ∀ targets r l r' l', Tidy r l → P r l → Step allowed targets r l r' l' → P r' l') :
    Tidy r l ∧ P r l := by
  induction h with
  | empty config => exact ⟨tidy_empty config, hempty config⟩
  | @act r l action _ ha ih =>
    obtain ⟨ht, hp⟩ := ih
    have h : Step allowed action.targets r l _ _ := Registry.step_act ht.numbered ha
    exact ⟨ht.step h, hstep _ _ _ _ _ ht hp h⟩
  | @begin r l c _ ih =>
    obtain ⟨ht, hp⟩ := ih
    have h : Step allowed [] r l _ _ := (Registry.same_begin r c).step
    exact ⟨ht.step h, hstep _ _ _ _ _ ht hp h⟩

theorem Traced.tidy (h : Traced allowed r l) : Tidy r l :=
  (h.holds (fun _ => trivial) fun _ _ _ _ _ _ _ _ => trivial : Tidy r l ∧ True).1

theorem Reachable.tidy (h : Reachable r) : ∃ l, Tidy r l := by
  obtain ⟨config, hrun⟩ := h
  obtain ⟨l, htraced⟩ := traced_of_run hrun
  exact ⟨l, htraced.tidy⟩

/-- What a slot contains after a write to another: what was written if it holds the same parts. -/
theorem Reachable.contents_write {r : Registry} (h : Reachable r) {s t : String}
    {c d : Collection} (hc : r.collection? s = some c) (hd : r.collection? t = some d)
    (contents : Contents) : (r.write c contents).contents d =
      if d.handle = c.handle then contents else r.contents d := by
  obtain ⟨l, ht⟩ := h.tidy
  unfold Registry.contents Registry.write
  split
  · next e =>
    rw [e]
    exact Parts.contents_write_self (ht.held s c hc) contents
  · next hne =>
    have hapart := (ht.whole t s d c hd hc).resolve_left hne
    exact r.parts.contents_write_of_apart hapart.symm contents

end KeyedColumns
