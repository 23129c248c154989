import KeyedColumns.Proofs.Sharing

/-!
# What an action leaves alone

A call changes the parts of one collection, for all that share them, and nothing else. Every other
action changes which parts the slots that it names hold, and no part that was there before.
-/

namespace KeyedColumns

namespace Handle

/-- Two handles with a part in common. -/
def Touches (h k : Handle) : Prop :=
  h.sequence = k.sequence ∨ h.index = k.index ∨ h.active = k.active

theorem not_touches_iff {h k : Handle} : ¬ h.Touches k ↔ h.Apart k := by
  unfold Touches
  rw [not_or, not_or]
  exact ⟨fun ⟨a, b, c⟩ => ⟨a, b, c⟩, fun a => ⟨a.sequence, a.index, a.active⟩⟩

theorem touches_refl (h : Handle) : h.Touches h := Or.inl rfl

end Handle

/-- The second parts differ from the first at most under one handle. -/
structure Parts.SameOutside (p q : Parts) (h : Handle) : Prop where
  holds : ∀ k, q.Holds k ↔ p.Holds k
  sequences : ∀ x, x ≠ h.sequence → q.sequences.get x = p.sequences.get x
  indexes : ∀ x, x ≠ h.index → q.indexes.get x = p.indexes.get x
  actives : ∀ x, x ≠ h.active → q.actives.get x = p.actives.get x

/-- In the second registry, only the contents of one collection may have changed. -/
structure Rewritten (r r' : Registry) (c : Collection) : Prop where
  slots : r'.slots = r.slots
  catalogue : r'.catalogue = r.catalogue
  parts : r.parts.SameOutside r'.parts c.handle
  shared : ∀ t d, r'.collection? t = some d → d.handle.Touches c.handle →
    r'.contents d = r'.contents c
  apart : ∀ t d, r'.collection? t = some d → ¬ d.handle.Touches c.handle →
    r'.contents d = r.contents d

/-- In the second registry, only what some slots hold may have changed. -/
structure Reseated (r r' : Registry) (slots : List String) : Prop where
  parts : r.parts.Kept r'.parts
  others : ∀ t, t ∉ slots → r'.collection? t = r.collection? t
  seen : ∀ t c, t ∉ slots → r.collection? t = some c → r'.contents c = r.contents c

variable {allowed : Registry → Action → Prop} {targets : List String} {r r' : Registry}
  {l l' : Lineage}

/-! ## Calls -/

theorem Parts.sameOutside_refl (p : Parts) (h : Handle) : p.SameOutside p h :=
  ⟨fun _ => Iff.rfl, fun _ _ => rfl, fun _ _ => rfl, fun _ _ => rfl⟩

theorem Parts.sameOutside_write (p : Parts) (h : Handle) (c : Contents) :
    p.SameOutside (p.write h c) h where
  holds := by
    intro k
    simp [Parts.Holds, Parts.write, Store.Holds]
  sequences := fun _ hx => Store.get_set_of_ne _ hx.symm _
  indexes := fun _ hx => Store.get_set_of_ne _ hx.symm _
  actives := fun _ hx => Store.get_set_of_ne _ hx.symm _

theorem Tidy.handle_eq (ht : Tidy r l) {s t : String} {c d : Collection}
    (hc : r.collection? s = some c) (hd : r.collection? t = some d)
    (htouch : c.handle.Touches d.handle) : c.handle = d.handle := by
  rcases ht.whole s t c d hc hd with h | h
  · exact h
  · exact absurd htouch (Handle.not_touches_iff.mpr h)

theorem Tidy.rewritten (ht : Tidy r l) {slot : String} {c : Collection}
    (hc : r.collection? slot = some c) (contents : Contents) :
    Rewritten r (r.write c contents) c where
  slots := rfl
  catalogue := rfl
  parts := r.parts.sameOutside_write c.handle contents
  shared := by
    intro t d hd htouch
    unfold Registry.contents
    rw [ht.handle_eq hd hc htouch]
  apart := by
    intro t d hd htouch
    have ha := Handle.not_touches_iff.mp htouch
    exact r.parts.contents_write_of_apart ha.symm contents

theorem Tidy.rewritten_refl (ht : Tidy r l) {slot : String} {c : Collection}
    (hc : r.collection? slot = some c) : Rewritten r r c where
  slots := rfl
  catalogue := rfl
  parts := r.parts.sameOutside_refl c.handle
  shared := by
    intro t d hd htouch
    unfold Registry.contents
    rw [ht.handle_eq hd hc htouch]
  apart := fun _ _ _ _ => rfl

theorem Tidy.act_call (ht : Tidy r l) {slot : String} {c : Collection}
    (hc : r.collection? slot = some c) (call : Call) (mode : Mode) :
    Rewritten r (r.act (.call slot call mode)).1 c := by
  simp only [Registry.act, hc]
  split
  · exact ht.rewritten hc (r.run slot c call mode).2.contents
  · exact ht.rewritten_refl hc

/-! ## Other actions -/

theorem Step.kept_parts (h : Step allowed targets r l r' l')
    (hn : ∀ slot call mode, ¬ allowed r (.call slot call mode)) : r.parts.Kept r'.parts := by
  cases h with
  | rearranged hp => exact hp ▸ Parts.Kept.refl _
  | founded slot kind context contents => exact r.parts.kept_push contents
  | copied slot source c => exact r.parts.kept_push (r.contents c)
  | written slot c call mode d ha => exact absurd ha (hn slot call mode)
  | made label column => exact Parts.Kept.refl _
  | rekeyed i key => exact Parts.Kept.refl _
  | restored saved restored _ m h => exact h.tracked.kept

theorem Step.others (h : Step allowed targets r l r' l') {t : String} (ht : t ∉ targets) :
    r'.collection? t = r.collection? t := by
  cases h with
  | rearranged _ _ hothers => exact hothers t ht
  | founded slot kind context contents hslot =>
    rw [Registry.collection?_establish, if_neg (ne_of_mem_of_not_mem hslot ht)]
  | copied slot source c hslot =>
    rw [Registry.collection?_establish, if_neg (ne_of_mem_of_not_mem hslot ht)]
  | written slot c call mode d => rfl
  | made label column => rfl
  | rekeyed i key => rfl
  | restored saved restored _ m h hslots =>
    refine h.others (lastFor_eq_none fun hm => ht ?_)
    obtain ⟨p, hp, rfl⟩ := List.mem_map.mp hm
    exact hslots _ (List.of_mem_zip hp).2

theorem Tidy.act_reseated (ht : Tidy r l) {action : Action}
    (hn : ∀ slot call mode, action ≠ .call slot call mode) :
    Reseated r (r.act action).1 action.targets := by
  have hstep : Step (fun _ a => a = action) action.targets r l (r.act action).1
      (r.lineageAfter action l) := Registry.step_act ht.numbered rfl
  have hparts := hstep.kept_parts fun slot call mode e => hn slot call mode e.symm
  exact ⟨hparts, fun t h => hstep.others h, fun t c _ hc => hparts.contents_eq (ht.held t c hc)⟩

/-! ## Sharing and frame -/

/--
Collections share all parts or none, and no part is both a lenient and a deduplicating collection's. A
call rewrites one collection, for those that share with it; any other action reseats slots that it
names.
-/
theorem sharing_and_frame (h : Reachable r) :
    (∀ s t c d, r.collection? s = some c → r.collection? t = some d →
      (c.handle = d.handle ∨ c.handle.Apart d.handle) ∧
      (Registry.shares c d ↔ c.handle.Touches d.handle) ∧
      (c.kind = .lenient → d.kind = .dedupe → c.handle.Apart d.handle)) ∧
    (∀ slot c call mode, r.collection? slot = some c →
      Rewritten r (r.act (.call slot call mode)).1 c) ∧
    ∀ action, (∀ slot call mode, action ≠ .call slot call mode) →
      Reseated r (r.act action).1 action.targets := by
  obtain ⟨config, hrun⟩ := h
  obtain ⟨l, htraced⟩ := traced_of_run hrun
  have ht := htraced.tidy
  refine ⟨?_, fun slot c call mode hc => ht.act_call hc call mode, fun _ => ht.act_reseated⟩
  intro s t c d hc hd
  have hwhole := ht.whole s t c d hc hd
  refine ⟨hwhole, ?_, ?_⟩
  · unfold Registry.shares
    rw [decide_eq_true_eq]
    exact ⟨fun e => e ▸ Handle.touches_refl _, ht.handle_eq hc hd⟩
  · intro hck hdk
    refine hwhole.resolve_left fun e => ?_
    -- One handle has one lineage, and a collection that is no view is of the kind of its lineage.
    have hline := ht.line s t c d hc hd e
    rw [ht.lineage_of_kind hc hck (by decide), ht.lineage_of_kind hd hdk (by decide)] at hline
    cases hline

/-- A collection with a view of it, and a lenient one beside them. -/
theorem sharing_and_frame_of_view : ∃ r c v k, Reachable r ∧ r.collection? "d" = some c ∧
    r.collection? "v" = some v ∧ r.collection? "l" = some k ∧ Registry.shares c v ∧
    c.handle.Apart k.handle ∧
    Rewritten r (r.act (.call "d" (.remove (some (.made "a"))) .raising)).1 c ∧
    Reseated r (r.act (.assign "d" "e")).1 ["d"] := by
  have h : Reachable _ := ⟨.ofDefault .info false, Run.refl
    |>.act (.makeItem "a" (.named "a")) trivial
    |>.act (.create "d" .dedupe [("a", some (.made "a"))] none .raising) trivial
    |>.act (.freeze "v" "d") trivial
    |>.act (.create "l" .lenient [("p", some (.made "a"))] none .raising) trivial
    |>.act (.create "e" .dedupe [] none .raising) trivial⟩
  obtain ⟨hshare, hcall, hother⟩ := sharing_and_frame h
  refine ⟨_, ⟨.dedupe, ⟨⟨0⟩, ⟨0⟩, ⟨0⟩⟩, ⟨none, .collection⟩⟩,
    ⟨.view, ⟨⟨0⟩, ⟨0⟩, ⟨0⟩⟩, ⟨none, .collection⟩⟩,
    ⟨.lenient, ⟨⟨1⟩, ⟨1⟩, ⟨1⟩⟩, ⟨none, .collection⟩⟩, h, ?collection, ?view, ?lenient, ?_, ?_,
    hcall "d" _ _ _ ?collection, hother _ (by intro slot call mode e; cases e)⟩
  case collection => decide
  case view => decide
  case lenient => decide
  · exact (hshare "d" "v" _ _ (by decide) (by decide)).2.1.mpr (Handle.touches_refl _)
  · exact ((hshare "d" "l" _ _ (by decide) (by decide)).1).resolve_left (by decide)

end KeyedColumns
