import KeyedColumns.Proofs.Mirror
import KeyedColumns.Proofs.RoundTrip

/-!
# Loaded collections behave as the saved ones

After a round trip into free slots, the loaded group cannot be told from the saved one by what it
does: with every archived item and what was loaded for it exchanged, all answers are the same.
-/

namespace KeyedColumns

/-! ## Exchanging -/

section Exchange

variable {α : Type} {old : α → Prop} {f : α → α}

open Classical in
/-- Exchanges each old value with what a function makes of it. -/
noncomputable def exchange (old : α → Prop) (f : α → α) (a : α) : α :=
  if old a then f a else if h : ∃ b, old b ∧ f b = a then h.choose else a

theorem exchange_old {a : α} (ha : old a) : exchange old f a = f a := if_pos ha

theorem exchange_new (hinj : ∀ a b, old a → old b → f a = f b → a = b)
    (hnew : ∀ a, old a → ¬ old (f a)) {a : α} (ha : old a) : exchange old f (f a) = a := by
  have h : ∃ b, old b ∧ f b = f a := ⟨a, ha, rfl⟩
  unfold exchange
  rw [if_neg (hnew a ha), dif_pos h]
  exact hinj _ _ h.choose_spec.1 ha h.choose_spec.2

theorem exchange_other {a : α} (ha : ¬ old a) (hf : ∀ b, old b → f b ≠ a) :
    exchange old f a = a := by
  unfold exchange
  rw [if_neg ha, dif_neg]
  rintro ⟨b, hb, e⟩
  exact hf b hb e

theorem exchange_involutive (hinj : ∀ a b, old a → old b → f a = f b → a = b)
    (hnew : ∀ a, old a → ¬ old (f a)) : Function.Involutive (exchange old f) := by
  intro a
  by_cases ha : old a
  · rw [exchange_old ha, exchange_new hinj hnew ha]
  · by_cases hf : ∃ b, old b ∧ f b = a
    · obtain ⟨b, hb, rfl⟩ := hf
      rw [exchange_new hinj hnew hb, exchange_old hb]
    · have hother : exchange old f a = a :=
        exchange_other ha fun b hb e => hf ⟨b, hb, e⟩
      rw [hother, hother]

end Exchange

/-! ## Counterparts -/

/-- The items of the collections that are loaded. -/
def Registry.Archived (r : Registry) (loads : List (String × String)) (i : ItemId) : Prop :=
  ∃ c u, r.Loads loads c u ∧ i ∈ (r.contents c).members

/-- Each archived item is exchanged with an item that the loads made; all other items stay. -/
structure Exchanges (φ : Equiv.Perm ItemId) (r r' : Registry) (loads : List (String × String)) :
    Prop where
  involutive : ∀ i, φ (φ i) = i
  counterpart : ∀ i, r.Archived loads i → ¬ r.catalogue.knows (φ i) ∧ r'.catalogue.knows (φ i) ∧
    r'.catalogue.column (φ i) = r.catalogue.column i
  others : ∀ i, ¬ r.Archived loads i → ¬ r.Archived loads (φ i) → φ i = i

theorem Twin.index_eq {m : Renaming} {r r' : Registry} {c d : Collection} (h : Twin m r r' c d) :
    (r'.contents d).index = (r.contents c).index.archived m.item := by
  have hbyKey := h.byKey
  have hbyPosition := h.byPosition
  have hfirst := h.firstPosition
  cases hx : (r'.contents d).index
  rw [hx] at hbyKey hbyPosition hfirst
  simp only at hbyKey hbyPosition hfirst
  rw [hbyKey, hbyPosition, hfirst]
  rfl

/-- What was loaded is what was saved, with the items exchanged. -/
theorem Twin.contents_eq {m : Renaming} {r r' : Registry} {loads : List (String × String)}
    {φ : Equiv.Perm ItemId} {c d : Collection} {u : String} (h : Twin m r r' c d)
    (hc : r.Loads loads c u) (hcoherent : (r.contents c).Coherent)
    (hφ : Exchanges φ r r' loads) (hitem : ∀ i, r.Archived loads i → φ i = m.item i) :
    r'.contents d = (r.contents c).rename φ := by
  have hmember : ∀ i ∈ (r.contents c).members, φ i = m.item i := fun i hi =>
    hitem i ⟨c, u, hc, hi⟩
  have hentries : (r.contents c).entries.map (fun e => { e with item := m.item e.item }) =
      (r.contents c).entries.map (Entry.rename φ) := by
    apply List.map_congr_left
    intro e he
    rw [Entry.rename, hmember e.item (Contents.mem_members.mpr ⟨e, he, rfl⟩)]
  have hsymm : ∀ i, φ.symm i = φ i := fun i => by
    rw [Equiv.symm_apply_eq, hφ.involutive]
  apply Contents.ext
  · rw [h.entries, hentries]
    rfl
  · have hof : ∀ f : ItemId → ItemId, (r.contents c).index.archived f =
        KeyIndex.ofEntries ((r.contents c).entries.map fun e => { e with item := f e.item }) := by
      intro f
      rw [KeyIndex.ofEntries_map, ← hcoherent.index]
      rfl
    rw [h.index_eq, hof, hentries]
    exact (hof φ).symm
  · intro i
    rw [h.active, Contents.mem_active_rename, hsymm]
    constructor
    · rintro ⟨j, hj, rfl⟩
      rw [← hmember j (hcoherent.active j hj), hφ.involutive]
      exact hj
    · intro hi
      refine ⟨φ i, hi, ?_⟩
      rw [← hmember _ (hcoherent.active _ hi), hφ.involutive]

namespace Isomorphic

variable {m : Renaming} {r r' : Registry} {loads : List (String × String)}
  {φ : Equiv.Perm ItemId}

theorem item_injOn (h : Isomorphic m r r' loads) (i j : ItemId) (hi : r.Archived loads i)
    (hj : r.Archived loads j) (e : m.item i = m.item j) : i = j := by
  obtain ⟨c, u, hc, hi⟩ := hi
  obtain ⟨c', u', hc', hj⟩ := hj
  exact h.item_inj c u c' u' hc hc' i hi j hj e

theorem exists_exchanges (h : Isomorphic m r r' loads)
    (hknown : ∀ i, r.Archived loads i → r.catalogue.knows i) :
    ∃ φ : Equiv.Perm ItemId, Exchanges φ r r' loads ∧
      ∀ i, r.Archived loads i → φ i = m.item i := by
  have hnew : ∀ i, r.Archived loads i → ¬ r.catalogue.knows (m.item i) ∧
      r'.catalogue.knows (m.item i) ∧ r'.catalogue.column (m.item i) = r.catalogue.column i := by
    rintro i ⟨c, u, hc, hi⟩
    exact h.newItem c u hc i hi
  have hout : ∀ i, r.Archived loads i → ¬ r.Archived loads (m.item i) := fun i hi hj =>
    (hnew i hi).1 (hknown _ hj)
  have hinv := exchange_involutive h.item_injOn hout
  have hcoe := Function.Involutive.coe_toPerm hinv
  refine ⟨Function.Involutive.toPerm _ hinv, ⟨?_, ?_, ?_⟩, ?_⟩
  · rw [hcoe]
    exact hinv
  · intro i hi
    rw [hcoe, exchange_old hi]
    exact hnew i hi
  · intro i hi hj
    rw [hcoe] at hj ⊢
    refine exchange_other hi fun k hk e => hj ?_
    subst e
    rw [exchange_new h.item_injOn hout hk]
    exact hk
  · intro i hi
    rw [hcoe]
    exact exchange_old hi

theorem handle_iff (h : Isomorphic m r r' loads) {c c' d d' : Collection} {u u' : String}
    (hc : r.Loads loads c u) (hc' : r.Loads loads c' u') (hd : r'.collection? u = some d)
    (hd' : r'.collection? u' = some d') : d.handle = d'.handle ↔ c.handle = c'.handle := by
  have htwin := h.twin_of_held hc hd
  have htwin' := h.twin_of_held hc' hd'
  obtain ⟨hs, hi, ha⟩ := h.shares_iff hc hc' htwin htwin'
  constructor
  · intro e
    rw [e] at hs hi ha
    cases hh : c.handle
    cases hh' : c'.handle
    rw [hh, hh'] at hs hi ha
    exact Handle.mk.injEq .. ▸ ⟨hs.mp rfl, hi.mp rfl, ha.mp rfl⟩
  · intro e
    rw [htwin.handle, htwin'.handle, e]

/-- After a round trip that left the saved slots alone, what was loaded mirrors what was saved. -/
theorem mirrored (h : Isomorphic m r r' loads) (hr' : Reachable r')
    (hkept : r.catalogue.Kept r'.catalogue)
    (hsaved : ∀ p ∈ loads, ∃ c, r.collection? p.1 = some c ∧ r'.collection? p.1 = some c ∧
      r'.contents c = r.contents c ∧ (r.contents c).Coherent)
    (hknown : ∀ i, r.Archived loads i → r.catalogue.knows i) (hφ : Exchanges φ r r' loads)
    (hitem : ∀ i, r.Archived loads i → φ i = m.item i) : Mirrored φ loads r' r' := by
  have hold : ∀ i, r.Archived loads i → r'.catalogue.knows (φ i) = r'.catalogue.knows i ∧
      r'.catalogue.column (φ i) = r'.catalogue.column i := by
    intro i hi
    obtain ⟨-, hknows, hcolumn⟩ := hφ.counterpart i hi
    obtain ⟨hknows', hcolumn'⟩ := hkept i (hknown i hi)
    exact ⟨hknows.trans hknows'.symm, hcolumn.trans hcolumn'.symm⟩
  -- An item is archived, or was loaded for one that is, or stays.
  have hany : ∀ i, r'.catalogue.knows (φ i) = r'.catalogue.knows i ∧
      r'.catalogue.column (φ i) = r'.catalogue.column i := by
    intro i
    by_cases hi : r.Archived loads i
    · exact hold i hi
    · by_cases hj : r.Archived loads (φ i)
      · have hback := hold (φ i) hj
        rw [hφ.involutive] at hback
        exact ⟨hback.1.symm, hback.2.symm⟩
      · rw [hφ.others i hi hj]
        exact ⟨rfl, rfl⟩
  refine ⟨hr', hr', fun i => (hany i).1, fun i => (hany i).2, ?_, ?_⟩
  · intro p hp
    obtain ⟨c, hc, hc', hcontents, hcoherent⟩ := hsaved p hp
    have hload : r.Loads loads c p.2 := ⟨p.1, hp, hc⟩
    obtain ⟨d, hd, htwin⟩ := h.twin c p.2 hload
    refine ⟨c, d, hc', hd, htwin.kind, ?_⟩
    rw [hcontents]
    exact htwin.contents_eq hload hcoherent hφ hitem
  · intro p hp q hq c c' d d' hc hc' hd hd'
    obtain ⟨e, he, he', -⟩ := hsaved p hp
    obtain ⟨e', hf, hf', -⟩ := hsaved q hq
    obtain rfl := Option.some.inj (he'.symm.trans hc)
    obtain rfl := Option.some.inj (hf'.symm.trans hc')
    exact h.handle_iff ⟨p.1, hp, he⟩ ⟨q.1, hq, hf⟩ hd hd'

end Isomorphic

/-! ## The loaded group -/

theorem exists_isomorphic {r : Registry} (h : Reachable r) {saved restored : List String}
    (hsaved : ∀ t ∈ saved, (r.collection? t).isSome) (hle : restored.length ≤ saved.length)
    (hn : restored.Nodup) (hfree : ∀ u ∈ restored, r.collection? u = none) :
    ∃ r' m, r.act (.roundTrip saved restored) = (r', .done) ∧
      Isomorphic m r r' (saved.zip restored) ∧ r.catalogue.Kept r'.catalogue ∧
      Reseated r r' restored := by
  obtain ⟨l, ht⟩ := h.tidy
  have hlen := Registry.length_save hsaved
  have hcan : r.canRestore (r.save saved) restored := by
    refine Registry.canRestore_of_distinct hsaved hle hn fun p hp c hc d hd => ?_
    have hd : r.collection? p.2 = some d := hd
    rw [hfree p.2 (List.of_mem_zip hp).2] at hd
    cases hd
  have hact := Registry.act_roundTrip hlen hcan
  have hseat : Reseated r (r.act (.roundTrip saved restored)).1 restored :=
    ht.act_reseated (by intro slot call mode e; cases e)
  obtain ⟨m, hloaded⟩ := Registry.restore_reloaded ht.numbered hlen hcan
  rw [hact] at hseat
  exact ⟨_, m, hact, hloaded.isomorphic hle hn (exists_sound h), hloaded.tracked.items.kept, hseat⟩

/--
Whatever is asked of a group of collections that was loaded into free slots, with archived items and
what was loaded for them exchanged, is answered as by the saved group; in the end the groups
correspond.
-/
theorem loaded_mirrors_saved {r : Registry} (h : Reachable r) {saved restored : List String}
    (hsaved : ∀ t ∈ saved, (r.collection? t).isSome) (hle : restored.length ≤ saved.length)
    (hn : restored.Nodup) (hfree : ∀ u ∈ restored, r.collection? u = none) :
    ∃ r' φ, r.act (.roundTrip saved restored) = (r', .done) ∧
      Exchanges φ r r' (saved.zip restored) ∧
      ∀ uses : List (Use (Place (saved.zip restored))),
        FollowAll φ (saved.zip restored)
          (Registry.answerAll (Use.requests (fun p => p.1.1) (Equiv.refl ItemId) uses) r')
          (Registry.answerAll (Use.requests (fun p => p.1.2) φ uses) r') := by
  obtain ⟨r', m, hact, hiso, hkept, hseat⟩ := exists_isomorphic h hsaved hle hn hfree
  have hsound := exists_sound h
  have hr' : Reachable r' := by
    have hr := h.act (.roundTrip saved restored)
    rw [hact] at hr
    exact hr
  have hknown : ∀ i, r.Archived (saved.zip restored) i → r.catalogue.knows i := by
    rintro i ⟨c, u, ⟨t, -, hc⟩, hi⟩
    obtain ⟨kind, hsnd⟩ := hsound t c hc
    exact hsnd.known i hi
  obtain ⟨φ, hφ, hitem⟩ := hiso.exists_exchanges hknown
  refine ⟨r', φ, hact, hφ, fun uses => Mirrored.answerAll uses r' r' ?_⟩
  refine hiso.mirrored hr' hkept (fun p hp => ?_) hknown hφ hitem
  obtain ⟨c, hc⟩ := Option.isSome_iff_exists.mp (hsaved p.1 (List.of_mem_zip hp).1)
  have hnot : p.1 ∉ restored := by
    intro hm
    rw [hfree p.1 hm] at hc
    cases hc
  obtain ⟨kind, hsnd⟩ := hsound p.1 c hc
  exact ⟨c, hc, (hseat.others p.1 hnot).trans hc, hseat.seen p.1 c hnot hc, hsnd.toCoherent⟩

/-- A collection that was loaded twice, with a view, and changes while the view is gone over. -/
theorem loaded_mirrors_saved_of_view : ∃ r r' φ, Reachable r ∧
    r.act (.roundTrip ["d", "v", "d"] ["e", "w", "f"]) = (r', .done) ∧
    Exchanges φ r r' [("d", "e"), ("v", "w"), ("d", "f")] ∧
    FollowAll φ [("d", "e"), ("v", "w"), ("d", "f")]
      (Registry.answerAll
        [.act (.call "d" (.add (some (.made "a")) none) .raising),
          .iterate "v" [(0, [.act (.call "d" (.remove (some (.made "b"))) (.code .success))])],
          .act (.compare "d" "d")] r')
      (Registry.answerAll
        [.act (.call "e" (.add (some (φ (.made "a"))) none) .raising),
          .iterate "w" [(0, [.act (.call "f" (.remove (some (φ (.made "b")))) (.code .success))])],
          .act (.compare "e" "f")] r') := by
  have h : Reachable _ := ⟨.ofDefault .info false, Run.refl
    |>.act (.makeItem "a" (.named "a")) trivial
    |>.act (.makeItem "b" (.named "b")) trivial
    |>.act (.create "d" .dedupe [("a", some (.made "a"))] none .raising) trivial
    |>.act (.freeze "v" "d") trivial
    |>.act (.setKey (.made "a") "z") trivial⟩
  obtain ⟨r', φ, hact, hφ, hall⟩ :=
    @loaded_mirrors_saved _ h ["d", "v", "d"] ["e", "w", "f"] (by decide) (by decide) (by decide)
      (by decide)
  have hfollow := hall
    [.call ⟨("d", "e"), by decide⟩ (.add (some (.made "a")) none) .raising,
      .iterate ⟨("v", "w"), by decide⟩
        [(0, [.call ⟨("d", "f"), by decide⟩ (.remove (some (.made "b"))) (.code .success)])],
      .compare ⟨("d", "e"), by decide⟩ ⟨("d", "f"), by decide⟩]
  exact ⟨_, r', φ, h, hact, hφ, hfollow⟩

/-- A loaded item that is left as it is tells the loaded collection from the saved one. -/
theorem loaded_item_tells_apart : ∃ r r' c, Reachable r ∧
    r.act (.roundTrip ["d"] ["e"]) = (r', .done) ∧ r.collection? "d" = some c ∧
    .restored 1 ∉ (r.contents c).members ∧
    (r'.act (.ask "d" (.containsColumn (some (.restored 1))))).2.outcome = .value (.flag false) ∧
    (r'.act (.ask "e" (.containsColumn (some (.restored 1))))).2.outcome = .value (.flag true) := by
  have h : Reachable _ := ⟨.ofDefault .info false, Run.refl
    |>.act (.makeItem "a" (.named "a")) trivial
    |>.act (.create "d" .dedupe [("a", some (.made "a"))] none .raising) trivial⟩
  exact ⟨_, _, ⟨.dedupe, ⟨⟨0⟩, ⟨0⟩, ⟨0⟩⟩, ⟨none, .collection⟩⟩, h, rfl, by decide, by decide, rfl,
    rfl⟩

end KeyedColumns
