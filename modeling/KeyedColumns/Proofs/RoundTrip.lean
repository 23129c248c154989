import KeyedColumns.Proofs.Frame
import KeyedColumns.Proofs.Invariants

/-!
# Round trips

Saving collections and loading them into slots makes a second world of items and parts that is shaped
like the saved one: a renaming leads from the one to the other. `Isomorphic` says what it preserves.
-/

namespace KeyedColumns

/-- The collection `d` is in all of its parts the image of what `c` was. -/
structure Twin (m : Renaming) (r r' : Registry) (c d : Collection) : Prop where
  kind : d.kind = c.kind
  handle : d.handle = m.handle c.handle
  entries : (r'.contents d).entries =
    (r.contents c).entries.map fun e => { e with item := m.item e.item }
  byKey : (r'.contents d).index.byKey = (r.contents c).index.byKey.mapValues m.item
  byPosition : (r'.contents d).index.byPosition = (r.contents c).index.byPosition.map m.item
  firstPosition : (r'.contents d).index.firstPosition = (r.contents c).index.firstPosition
  active : ∀ j, j ∈ (r'.contents d).active ↔ ∃ i ∈ (r.contents c).active, m.item i = j
  indexed_mem : ∀ k j, (r'.contents d).index.byKey.find? k = some j → j ∈ (r'.contents d).items
  active_mem : ∀ j ∈ (r'.contents d).active, j ∈ (r'.contents d).items

theorem Twin.members_eq {m : Renaming} {r r' : Registry} {c d : Collection}
    (h : Twin m r r' c d) : (r'.contents d).members = (r.contents c).members.map m.item := by
  unfold Contents.members
  rw [h.entries, List.map_map, List.map_map]
  rfl

/-- A collection that is loaded into a slot, with the slot. -/
def Registry.Loads (r : Registry) (loads : List (String × String)) (c : Collection) (u : String) :
    Prop :=
  ∃ t, (t, u) ∈ loads ∧ r.collection? t = some c

/--
The loads, from saved slots to slots, made `r` into `r'`: what was loaded is new, and the renaming leads
to it, one-to-one.
-/
structure Isomorphic (m : Renaming) (r r' : Registry) (loads : List (String × String)) : Prop where
  twin : ∀ c u, r.Loads loads c u → ∃ d, r'.collection? u = some d ∧ Twin m r r' c d
  newItem : ∀ c u, r.Loads loads c u → ∀ i ∈ (r.contents c).members,
    ¬ r.catalogue.knows (m.item i) ∧ r'.catalogue.knows (m.item i) ∧
      r'.catalogue.column (m.item i) = r.catalogue.column i
  newParts : ∀ c u, r.Loads loads c u → r'.parts.Holds (m.handle c.handle) ∧
    ¬ r.parts.sequences.Holds (m.sequence c.handle.sequence) ∧
    ¬ r.parts.indexes.Holds (m.index c.handle.index) ∧
    ¬ r.parts.actives.Holds (m.active c.handle.active)
  item_inj : ∀ c u c' u', r.Loads loads c u → r.Loads loads c' u' →
    ∀ i ∈ (r.contents c).members, ∀ j ∈ (r.contents c').members, m.item i = m.item j → i = j
  sequence_inj : ∀ c u c' u', r.Loads loads c u → r.Loads loads c' u' →
    m.sequence c.handle.sequence = m.sequence c'.handle.sequence →
      c.handle.sequence = c'.handle.sequence
  index_inj : ∀ c u c' u', r.Loads loads c u → r.Loads loads c' u' →
    m.index c.handle.index = m.index c'.handle.index → c.handle.index = c'.handle.index
  active_inj : ∀ c u c' u', r.Loads loads c u → r.Loads loads c' u' →
    m.active c.handle.active = m.active c'.handle.active → c.handle.active = c'.handle.active

namespace Isomorphic

variable {m : Renaming} {r r' : Registry} {loads : List (String × String)} {c c' d d' : Collection}
  {u u' : String}

theorem shares_iff (h : Isomorphic m r r' loads) (hc : r.Loads loads c u)
    (hc' : r.Loads loads c' u') (hd : Twin m r r' c d) (hd' : Twin m r r' c' d') :
    (d.handle.sequence = d'.handle.sequence ↔ c.handle.sequence = c'.handle.sequence) ∧
      (d.handle.index = d'.handle.index ↔ c.handle.index = c'.handle.index) ∧
      (d.handle.active = d'.handle.active ↔ c.handle.active = c'.handle.active) := by
  rw [hd.handle, hd'.handle]
  exact ⟨⟨h.sequence_inj c u c' u' hc hc', congrArg m.sequence⟩,
    ⟨h.index_inj c u c' u' hc hc', congrArg m.index⟩,
    ⟨h.active_inj c u c' u' hc hc', congrArg m.active⟩⟩

theorem same_item_iff (h : Isomorphic m r r' loads) (hc : r.Loads loads c u)
    (hc' : r.Loads loads c' u') (hd : Twin m r r' c d) (hd' : Twin m r r' c' d') (p q : Nat) :
    (r'.contents d).members[p]? = (r'.contents d').members[q]? ↔
      (r.contents c).members[p]? = (r.contents c').members[q]? := by
  rw [hd.members_eq, hd'.members_eq, List.getElem?_map, List.getElem?_map]
  constructor
  · intro e
    cases hp : (r.contents c).members[p]? with
    | none =>
      rw [hp, Option.map_none, eq_comm, Option.map_eq_none_iff] at e
      rw [e]
    | some i =>
      rw [hp, Option.map_some, eq_comm, Option.map_eq_some_iff] at e
      obtain ⟨j, hq, hij⟩ := e
      have hi := List.mem_of_getElem? hp
      have hj := List.mem_of_getElem? hq
      rw [hq, h.item_inj c u c' u' hc hc' i hi j hj hij.symm]
  · intro e
    rw [e]

theorem twin_of_held (h : Isomorphic m r r' loads) (hc : r.Loads loads c u)
    (hd : r'.collection? u = some d) : Twin m r r' c d := by
  obtain ⟨e, he, htwin⟩ := h.twin c u hc
  rw [hd] at he
  cases he
  exact htwin

end Isomorphic

/-! ## Archives that track objects -/

namespace Registry.Reloaded

variable {r r' : Registry} {saved restored : List String} {m : Renaming} {c : Collection}
  {u : String}

theorem loads (h : r.Reloaded saved restored r' m) (hle : restored.length ≤ saved.length)
    (hn : restored.Nodup) (hc : r.Loads (saved.zip restored) c u) :
    Met r saved restored c.handle ∧
      ∃ d, r'.collection? u = some d ∧ d.kind = c.kind ∧ d.handle = m.handle c.handle := by
  obtain ⟨t, htu, hc⟩ := hc
  have hlast := lastFor_of_nodup (by rw [List.map_snd_zip hle]; exact hn) htu
  obtain ⟨c', d, hc', hm, hd⟩ := h.loaded hlast
  obtain rfl := Option.some.inj (hc.symm.trans hc')
  exact ⟨hm, d, hd⟩

theorem twin (h : r.Reloaded saved restored r' m) {kind : Kind}
    (hc : (r.contents c).Sound kind r.catalogue) (hm : Met r saved restored c.handle)
    {d : Collection} (hk : d.kind = c.kind) (hh : d.handle = m.handle c.handle) :
    Twin m r r' c d := by
  have himage : Contents.Image m.item r.catalogue r'.catalogue (r.contents c) (r'.contents d) := by
    have himage := h.tracked.image hm
    rw [← hh] at himage
    exact himage
  have hcoherent := himage.coherent hc.toCoherent
  have hindex := himage.index
  refine ⟨hk, hh, himage.entries, ?_, ?_, ?_, ?_, ?_, ?_⟩
  · rw [hindex]
    rfl
  · rw [hindex]
    rfl
  · rw [hindex]
    rfl
  · intro j
    rw [himage.active]
    constructor
    · rintro ⟨i, -, hi, rfl⟩
      exact ⟨i, hi, rfl⟩
    · rintro ⟨i, hi, rfl⟩
      exact ⟨i, hc.known i (hc.active i hi), hi, rfl⟩
  · intro k j hj
    rw [hcoherent.items_eq]
    exact Contents.mem_members.mpr ⟨⟨k, j⟩, hcoherent.find?_mem hj, rfl⟩
  · intro j hj
    rw [hcoherent.items_eq]
    exact hcoherent.active j hj

/-- Whatever archive tracks objects, a round trip into distinct slots is an isomorphism. -/
theorem isomorphic (h : r.Reloaded saved restored r' m) (hle : restored.length ≤ saved.length)
    (hn : restored.Nodup)
    (hsound : ∀ t c, r.collection? t = some c → ∃ kind, (r.contents c).Sound kind r.catalogue) :
    Isomorphic m r r' (saved.zip restored) := by
  have ht := h.tracked
  have hmet : ∀ {c u}, r.Loads (saved.zip restored) c u → Met r saved restored c.handle :=
    fun hc => (h.loads hle hn hc).1
  have hitem : ∀ {c u}, r.Loads (saved.zip restored) c u → ∀ i ∈ (r.contents c).members,
      ∃ k, Met r saved restored k ∧ i ∈ (r.save saved).itemsOf ((r.save saved).contents k) :=
    fun hc i hi => ⟨_, hmet hc, Archive.mem_itemsOf.mpr (Or.inr (Or.inl hi))⟩
  refine ⟨?_, ?_, ?_, ?_, ?_, ?_, ?_⟩
  · intro c u hc
    obtain ⟨hm, d, hd, hk, hh⟩ := h.loads hle hn hc
    obtain ⟨t, -, ht⟩ := hc
    obtain ⟨kind, hsnd⟩ := hsound t c ht
    exact ⟨d, hd, h.twin hsnd hm hk hh⟩
  · intro c u hc i hi
    have hfresh := ht.items.fresh i (hitem hc i hi)
    exact ⟨hfresh.1, hfresh.2, ht.items.fields i (hitem hc i hi)⟩
  · intro c u hc
    exact ⟨ht.holds (hmet hc), (ht.sequences.fresh _ ⟨_, hmet hc, rfl⟩).1,
      (ht.indexes.fresh _ ⟨_, hmet hc, rfl⟩).1, (ht.actives.fresh _ ⟨_, hmet hc, rfl⟩).1⟩
  · intro c u c' u' hc hc' i hi j hj
    exact ht.items.once i j (hitem hc i hi) (hitem hc' j hj)
  · exact fun c u c' u' hc hc' => ht.sequence_inj (hmet hc) (hmet hc')
  · exact fun c u c' u' hc hc' => ht.index_inj (hmet hc) (hmet hc')
  · exact fun c u c' u' hc hc' => ht.active_inj (hmet hc) (hmet hc')

end Registry.Reloaded

/-! ## When an archive can be restored -/

namespace Registry

theorem fits_of_nodup {kinds : Dict String Kind} {loads : List (Kind × String)}
    (hn : (loads.map (·.2)).Nodup)
    (hk : ∀ kind u, (kind, u) ∈ loads → ∀ k, kinds.find? u = some k → k = kind) :
    fits kinds loads := by
  induction loads generalizing kinds with
  | nil => rfl
  | cons p rest ih =>
    obtain ⟨kind, slot⟩ := p
    rw [List.map_cons, List.nodup_cons] at hn
    rw [fits, Bool.and_eq_true, decide_eq_true_eq]
    constructor
    · cases hf : kinds.find? slot with
      | none => rfl
      | some k => exact hk kind slot List.mem_cons_self k hf
    · refine ih hn.2 fun kind' u hu k hf => ?_
      have hmem : u ∈ rest.map (·.2) := List.mem_map.mpr ⟨_, hu, rfl⟩
      have hne : ¬ slot = u := fun e => hn.1 (e ▸ hmem)
      rw [Dict.find?_addNew, if_neg hne] at hf
      exact hk kind' u (List.mem_cons_of_mem _ hu) k hf

variable {r : Registry} {saved restored : List String}

theorem length_save (hsaved : ∀ t ∈ saved, (r.collection? t).isSome) :
    (r.save saved).collections.length = saved.length := by
  have hsome : ∀ l : List String, (∀ t ∈ l, (r.collection? t).isSome) →
      (l.filterMap r.collection?).length = l.length := by
    intro l hl
    induction l with
    | nil => rfl
    | cons t rest ih =>
      obtain ⟨c, hc⟩ := Option.isSome_iff_exists.mp (hl t List.mem_cons_self)
      rw [List.filterMap_cons_some hc, List.length_cons, List.length_cons,
        ih fun t ht => hl t (List.mem_cons_of_mem _ ht)]
  unfold save
  rw [List.length_map, hsome saved hsaved]

theorem canRestore_of_distinct (hsaved : ∀ t ∈ saved, (r.collection? t).isSome)
    (hle : restored.length ≤ saved.length) (hn : restored.Nodup)
    (hk : ∀ p ∈ saved.zip restored, ∀ c ∈ r.collection? p.1, ∀ d ∈ r.collection? p.2,
      d.kind = c.kind) :
    r.canRestore (r.save saved) restored := by
  obtain ⟨cs, hcs, hcoll⟩ := collections_save (length_save hsaved)
  have hlen : cs.length = saved.length := by
    have h := congrArg List.length hcs
    rw [List.length_map, List.length_map] at h
    exact h.symm
  unfold canRestore
  rw [Bool.and_eq_true, decide_eq_true_eq, hcoll, List.length_map, hlen, List.map_map]
  refine ⟨hle, fits_of_nodup ?_ ?_⟩
  · rw [List.map_snd_zip (by rw [List.length_map, hlen]; exact hle)]
    exact hn
  · intro kind u hu k hf
    rw [Dict.find?_mapValues, Option.map_eq_some_iff] at hf
    obtain ⟨d, hd, rfl⟩ := hf
    -- The saved kinds, read off the slots, so that a load is found by its slot.
    have hkinds : cs.map ((fun p : Kind × Handle => p.1) ∘ fun c => (c.kind, c.handle)) =
        saved.map fun t => ((r.collection? t).map (·.kind)).getD kind := by
      have h := congrArg (List.map fun o : Option Collection => (o.map (·.kind)).getD kind) hcs
      rw [List.map_map, List.map_map] at h
      exact h.symm
    rw [hkinds, List.zip_map_left] at hu
    obtain ⟨⟨t, v⟩, htv, e⟩ := List.mem_map.mp hu
    obtain ⟨ekind, rfl⟩ := Prod.mk.inj e
    obtain ⟨c, hc⟩ := Option.isSome_iff_exists.mp (hsaved t (List.of_mem_zip htv).1)
    have ekind : ((r.collection? t).map (·.kind)).getD kind = kind := ekind
    rw [hc] at ekind
    rw [hk (t, v) htv c hc d hd]
    exact ekind

theorem act_roundTrip (hlen : (r.save saved).collections.length = saved.length)
    (hcan : r.canRestore (r.save saved) restored) :
    r.act (.roundTrip saved restored) = (r.restore (r.save saved) restored, .done) := by
  have hok : (decide ((r.save saved).collections.length = saved.length) &&
      r.canRestore (r.save saved) restored) = true := by
    rw [Bool.and_eq_true, decide_eq_true_eq]
    exact ⟨hlen, hcan⟩
  simp only [act, hok, if_true]

end Registry

/-! ## The isomorphism -/

/--
Loading saved collections into distinct slots of equal kinds makes twins of them, with new items and
new parts that are shared as the saved ones are. All else stays as it is.
-/
theorem roundTrip_isomorphic {r : Registry} (h : Reachable r) {saved restored : List String}
    (hsaved : ∀ t ∈ saved, (r.collection? t).isSome)
    (hle : restored.length ≤ saved.length) (hn : restored.Nodup)
    (hk : ∀ p ∈ saved.zip restored, ∀ c ∈ r.collection? p.1, ∀ d ∈ r.collection? p.2,
      d.kind = c.kind) :
    ∃ r' m, r.act (.roundTrip saved restored) = (r', .done) ∧
      Isomorphic m r r' (saved.zip restored) ∧
      (∀ c u c' u' d d', r.Loads (saved.zip restored) c u → r.Loads (saved.zip restored) c' u' →
        r'.collection? u = some d → r'.collection? u' = some d' →
        ((d.handle.sequence = d'.handle.sequence ↔ c.handle.sequence = c'.handle.sequence) ∧
          (d.handle.index = d'.handle.index ↔ c.handle.index = c'.handle.index) ∧
          (d.handle.active = d'.handle.active ↔ c.handle.active = c'.handle.active)) ∧
        ∀ p q : Nat, (r'.contents d).members[p]? = (r'.contents d').members[q]? ↔
          (r.contents c).members[p]? = (r.contents c').members[q]?) ∧
      r.catalogue.Kept r'.catalogue ∧ Reseated r r' restored := by
  obtain ⟨config, hrun⟩ := h
  obtain ⟨l, htraced⟩ := traced_of_run hrun
  have ht := htraced.tidy
  have hlen := Registry.length_save hsaved
  have hcan := Registry.canRestore_of_distinct hsaved hle hn hk
  have hact := Registry.act_roundTrip hlen hcan
  have hseat : Reseated r (r.act (.roundTrip saved restored)).1 restored :=
    ht.act_reseated (by intro slot call mode e; cases e)
  obtain ⟨m, hloaded⟩ := Registry.restore_reloaded ht.numbered hlen hcan
  rw [hact] at hseat
  have hiso := hloaded.isomorphic hle hn fun t c hc => ⟨l t, (keeps_sound anything).holds htraced hc⟩
  refine ⟨_, m, hact, hiso, ?_, hloaded.tracked.items.kept, hseat⟩
  intro c u c' u' d d' hc hc' hd hd'
  have htwin := hiso.twin_of_held hc hd
  have htwin' := hiso.twin_of_held hc' hd'
  exact ⟨hiso.shares_iff hc hc' htwin htwin', hiso.same_item_iff hc hc' htwin htwin'⟩

/-- Saved twice, beside a view of it and into its own slot, with a member that got another key. -/
theorem roundTrip_isomorphic_into_itself : ∃ r r' m, Reachable r ∧
    r.act (.roundTrip ["d", "v", "l", "d"] ["w", "x", "y", "d"]) = (r', .done) ∧
    Isomorphic m r r' [("d", "w"), ("v", "x"), ("l", "y"), ("d", "d")] ∧
    Reseated r r' ["w", "x", "y", "d"] := by
  have h : Reachable _ := ⟨.ofDefault .info false, Run.refl
    |>.act (.makeItem "a" (.named "a")) trivial
    |>.act (.create "d" .dedupe [("a", some (.made "a"))] none .raising) trivial
    |>.act (.freeze "v" "d") trivial
    |>.act (.create "l" .lenient [("p", some (.made "a")), ("q", some (.made "a"))] none .raising)
      trivial
    |>.act (.setKey (.made "a") "z") trivial
    |>.act (.call "d" (.add (some (.made "a")) none) .raising) trivial⟩
  obtain ⟨r', m, hact, hiso, -, -, hseat⟩ :=
    @roundTrip_isomorphic _ h ["d", "v", "l", "d"] ["w", "x", "y", "d"] (by decide) (by decide)
      (by decide) (by decide)
  exact ⟨_, r', m, h, hact, hiso, hseat⟩

end KeyedColumns
