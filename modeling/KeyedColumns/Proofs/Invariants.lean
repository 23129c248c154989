import KeyedColumns.Proofs.Image

/-!
# What collections carry through every run

`Keeps` lists what a property of contents has to withstand; a property that withstands it holds in every
slot, throughout every run, of the kind for which the contents were made. Two properties do: one
whatever becomes of the keys of items, and a sharper one while members keep their keys.
-/

namespace KeyedColumns

/-- A property of the contents made for a kind that nothing an allowed action can do takes away. -/
structure Keeps (allowed : Registry → Action → Prop) (P : Kind → Catalogue → Contents → Prop) :
    Prop where
  empty : ∀ kind cat, P kind cat Contents.empty
  append : ∀ cat c (e : Entry), cat.knows e.item → P .lenient cat c → P .lenient cat (c.append e)
  change : ∀ cat c d, Dedupe.Change cat.column (fun i => cat.knows i) c d → P .dedupe cat c →
    P .dedupe cat d
  catalogue : ∀ kind cat cat' c, cat.Kept cat' → P kind cat c → P kind cat' c
  image : ∀ kind f cat cat' c d, Contents.Image f cat cat' c d → P kind cat c → P kind cat' d
  rekey : ∀ r l i key slot c, Tidy r l → allowed r (.setKey i key) → r.catalogue.knows i →
    r.collection? slot = some c → P (l slot) r.catalogue (r.contents c) →
    P (l slot) (r.catalogue.setKey i key) (r.contents c)

namespace Keeps

variable {allowed : Registry → Action → Prop} {P : Kind → Catalogue → Contents → Prop}
  {targets : List String} {r r' : Registry} {l l' : Lineage}

theorem appends (hP : Keeps allowed P) {cat : Catalogue} {es : List Entry} {c : Contents}
    (hes : ∀ e ∈ es, cat.knows e.item) (hc : P .lenient cat c) :
    P .lenient cat (es.foldl Contents.append c) := by
  induction es generalizing c with
  | nil => exact hc
  | cons e rest ih =>
    have he := hP.append cat c e (hes e List.mem_cons_self) hc
    exact ih (fun e' he' => hes e' (List.mem_cons_of_mem _ he')) he

theorem changes (hP : Keeps allowed P) {cat : Catalogue} {c d : Contents}
    (h : Dedupe.Changes cat.column (fun i => cat.knows i) c d) (hc : P .dedupe cat c) :
    P .dedupe cat d := by
  induction h with
  | refl => exact hc
  | tail _ h ih => exact hP.change cat _ _ h ih

theorem founded (hP : Keeps allowed P) {kind : Kind} {contents : Contents}
    (hf : Founded r kind contents) : P kind r.catalogue contents := by
  rcases hf with rfl | ⟨self, given, d, hgiven, hd, rfl⟩
  · exact hP.empty kind _
  · cases kind with
    | view =>
      cases hd
      exact hP.empty _ _
    | lenient =>
      obtain ⟨es, hes, hd'⟩ := Lenient.construct_appends hd
      rw [hd']
      refine hP.appends (fun e he => ?_) (hP.empty _ _)
      exact hgiven (e.key, some e.item) (hes ▸ List.mem_map_of_mem he) e.item rfl
    | dedupe =>
      exact hP.changes (Dedupe.construct_changes hd hgiven) (hP.empty _ _)

theorem attempted (hP : Keeps allowed P) (ht : Tidy r l) {slot : String} {c : Collection}
    (hc : r.collection? slot = some c) {call : Call} (hfor : call.isFor c.kind)
    (hi : ∀ i ∈ call.items, r.catalogue.knows i) {d : Done Result}
    (hd : r.attempt slot c call = .ok d) (h : P (l slot) r.catalogue (r.contents c)) :
    P (l slot) r.catalogue d.contents := by
  unfold Registry.attempt at hd
  cases hk : c.kind with
  | view =>
    rw [hk] at hd
    rw [Call.attempt_view hd]
    exact h
  | lenient =>
    rw [hk] at hd hfor
    rw [ht.lineage_of_kind hc hk (by decide)] at h ⊢
    obtain ⟨es, hes, hd'⟩ := Call.attempt_lenient hd hfor
    rw [hd']
    exact hP.appends (fun e he => hi e.item (hes e he)) h
  | dedupe =>
    rw [hk] at hd
    rw [ht.lineage_of_kind hc hk (by decide)] at h ⊢
    exact hP.changes (Call.attempt_dedupe hd hi) h

theorem established (ht : Tidy r l)
    (hold : ∀ s c, r.collection? s = some c → P (l s) r.catalogue (r.contents c)) (slot : String)
    (kind k : Kind) (context : Log.Context) {contents : Contents}
    (hp : P k r.catalogue contents) {s : String} {c : Collection}
    (hc : (r.establish slot kind context contents).collection? s = some c) :
    P (Function.update l slot k s) r.catalogue
      ((r.establish slot kind context contents).contents c) := by
  unfold Registry.contents Registry.establish
  rcases Registry.held_establish hc with ⟨rfl, rfl⟩ | ⟨hne, hc'⟩
  · rw [Function.update_self, Parts.contents_push_next]
    exact hp
  · rw [Function.update_of_ne hne, (r.parts.kept_push contents).contents_eq (ht.held s c hc')]
    exact hold s c hc'

theorem step (hP : Keeps allowed P) (ht : Tidy r l)
    (hold : ∀ s c, r.collection? s = some c → P (l s) r.catalogue (r.contents c))
    (h : Step allowed targets r l r' l') :
    ∀ s c, r'.collection? s = some c → P (l' s) r'.catalogue (r'.contents c) := by
  cases h with
  | rearranged hp hcat _ hs =>
    intro t d hd
    obtain ⟨s, c, hc, hh, -, hl⟩ := hs t d hd
    have heq : r'.contents d = r.contents c := by
      unfold Registry.contents
      rw [hp, hh]
    rw [hl, hcat, heq]
    exact hold s c hc
  | founded slot kind context contents _ hf =>
    exact fun s c => established ht hold slot kind kind context (hP.founded hf)
  | copied slot source c _ hc _ =>
    exact fun s d => established ht hold slot c.kind (l source) c.context (hold source c hc)
  | written slot c call mode d _ hc hfor hi hd =>
    intro t e he
    have hnew := hP.attempted ht hc hfor hi hd (hold slot c hc)
    rcases ht.whole t slot e c he hc with hh | hapart
    · have heq : (r.write c d.contents).contents e = d.contents := by
        unfold Registry.contents
        rw [hh]
        exact Parts.contents_write_self (ht.held slot c hc) _
      rw [heq, ht.line t slot e c he hc hh]
      exact hnew
    · have heq : (r.write c d.contents).contents e = r.contents e :=
        r.parts.contents_write_of_apart hapart.symm _
      rw [heq]
      exact hold t e he
  | made label column =>
    intro s c hc
    exact hP.catalogue _ _ _ _ (r.catalogue.kept_make label column) (hold s c hc)
  | rekeyed i key hi ha =>
    intro s c hc
    exact hP.rekey r _ i key s c ht ha hi hc (hold s c hc)
  | restored saved restored _ m h =>
    intro u d hd
    show P (((lastFor (saved.zip restored) u).map l).getD (l u)) _ _
    rcases h.held_cases hd with ⟨t, c, hu, hc, hm, -, hh⟩ | ⟨hu, hd'⟩
    · have himage := h.tracked.image hm
      rw [← hh] at himage
      rw [hu]
      exact hP.image _ _ _ _ _ _ himage (hold t c hc)
    · have heq : r'.contents d = r.contents d := h.tracked.kept.contents_eq (ht.held u d hd')
      rw [hu, heq]
      exact hP.catalogue _ _ _ _ h.tracked.items.kept (hold u d hd')

/-- A property that is kept holds in every slot of every registry that can come about. -/
theorem holds (hP : Keeps allowed P) (h : Traced allowed r l) {s : String} {c : Collection}
    (hc : r.collection? s = some c) : P (l s) r.catalogue (r.contents c) :=
  (h.holds (P := fun r l => ∀ s c, r.collection? s = some c →
      P (l s) r.catalogue (r.contents c))
    (fun _ _ _ hc => nomatch hc) fun _ _ _ _ _ ht hold h => hP.step ht hold h).2 s c hc

theorem of_run (hP : Keeps allowed P) {config : Log.Config} (h : Run allowed (.empty config) r)
    {s : String} {c : Collection} (hc : r.collection? s = some c) :
    ∃ kind, P kind r.catalogue (r.contents c) := by
  obtain ⟨l, ht⟩ := traced_of_run h
  exact ⟨l s, hP.holds ht hc⟩

end Keeps

/-! ## Whatever becomes of keys -/

namespace Contents

/-- What holds of contents made for a kind whatever keys items are given. -/
structure Sound (kind : Kind) (cat : Catalogue) (c : Contents) : Prop extends Coherent c where
  known : ∀ i ∈ c.members, cat.knows i
  deduplicated : kind = .dedupe → c.Deduplicated

theorem sound_empty (kind : Kind) (cat : Catalogue) : empty.Sound kind cat where
  toCoherent := coherent_empty
  known := by simp [members, entries_empty]
  deduplicated := fun _ => deduplicated_empty

variable {kind : Kind} {cat cat' : Catalogue} {c d : Contents}

theorem Sound.append (h : c.Sound .lenient cat) {e : Entry} (he : cat.knows e.item) :
    (c.append e).Sound .lenient cat where
  toCoherent := h.toCoherent.append e
  known := by
    intro i hi
    rw [members_append, List.mem_append, List.mem_singleton] at hi
    rcases hi with hi | rfl
    · exact h.known i hi
    · exact he
  deduplicated := by
    intro hk
    cases hk

theorem Sound.change (h : c.Sound .dedupe cat)
    (hcd : Dedupe.Change cat.column (fun i => cat.knows i) c d) : d.Sound .dedupe cat where
  toCoherent := ((h.deduplicated rfl).change hcd).toCoherent
  known := fun i hi => (members_change hcd (h.deduplicated rfl) i hi).elim (h.known i) id
  deduplicated := fun _ => (h.deduplicated rfl).change hcd

theorem Sound.mono (h : c.Sound kind cat) (hk : ∀ i, cat.knows i → cat'.knows i) :
    c.Sound kind cat' where
  toCoherent := h.toCoherent
  known := fun i hi => hk i (h.known i hi)
  deduplicated := h.deduplicated

theorem Sound.image {f : ItemId → ItemId} (h : c.Sound kind cat) (hi : Image f cat cat' c d) :
    d.Sound kind cat' where
  toCoherent := hi.coherent h.toCoherent
  known := by
    intro j hj
    rw [hi.members_eq] at hj
    obtain ⟨i, hm, rfl⟩ := List.mem_map.mp hj
    exact hi.knows i hm
  deduplicated := fun hk => hi.deduplicated (h.deduplicated hk)

end Contents

theorem keeps_sound (allowed : Registry → Action → Prop) : Keeps allowed Contents.Sound where
  empty := Contents.sound_empty
  append := fun _ _ _ he h => h.append he
  change := fun _ _ _ hcd h => h.change hcd
  catalogue := fun _ _ _ _ hk h => h.mono fun i hi => (hk i hi).1
  image := fun _ _ _ _ _ _ hi h => h.image hi
  rekey := fun r _ i key _ _ _ _ _ _ h =>
    h.mono fun j hj => (Catalogue.knows_setKey r.catalogue i j key).mpr (Or.inr hj)

theorem exists_sound {r : Registry} (h : Reachable r) :
    ∀ t c, r.collection? t = some c → ∃ kind, (r.contents c).Sound kind r.catalogue := by
  obtain ⟨config, hrun⟩ := h
  exact fun t c hc => (keeps_sound anything).of_run hrun hc

/-! ## While members keep their keys -/

/-- Any action but giving a key to an item that stands in a collection that is not lenient. -/
def Sparing (r : Registry) : Action → Prop
  | .setKey i _ => ∀ slot c, r.collection? slot = some c → c.kind ≠ .lenient →
    i ∉ (r.contents c).members
  | _ => True

namespace Contents

/-- What holds of contents made for a kind as long as members keep their keys. -/
structure Settled (kind : Kind) (cat : Catalogue) (c : Contents) : Prop extends
    Sound kind cat c where
  faithful : kind = .dedupe → c.Faithful cat.column

variable {kind : Kind} {cat cat' : Catalogue} {c d : Contents}

theorem Settled.kept (h : c.Settled kind cat) (hk : cat.Kept cat') : c.Settled kind cat' where
  toSound := h.toSound.mono fun i hi => (hk i hi).1
  faithful := fun hd => (h.faithful hd).congr fun i hi => (hk i (h.known i hi)).2

theorem Settled.image {f : ItemId → ItemId} (h : c.Settled kind cat) (hi : Image f cat cat' c d) :
    d.Settled kind cat' where
  toSound := h.toSound.image hi
  faithful := fun hd => hi.faithful (h.faithful hd) h.known

end Contents

theorem keeps_settled : Keeps Sparing Contents.Settled where
  empty := fun kind cat => ⟨Contents.sound_empty kind cat, fun _ => Contents.faithful_empty⟩
  append := fun _ _ _ he h => ⟨h.toSound.append he, fun hd => nomatch hd⟩
  change := fun _ _ _ hcd h => ⟨h.toSound.change hcd, fun hd => (h.faithful hd).change hcd⟩
  catalogue := fun _ _ _ _ hk h => h.kept hk
  image := fun _ _ _ _ _ _ hi h => h.image hi
  rekey := by
    intro r l i key slot c ht ha hi hc h
    refine ⟨h.toSound.mono fun j hj => (Catalogue.knows_setKey _ i j key).mpr (Or.inr hj), ?_⟩
    intro hd
    -- A collection with contents made for deduplicating is no lenient one, so it has other members.
    have hkind : c.kind ≠ .lenient := by
      intro hk
      rw [ht.lineage_of_kind hc hk (by decide)] at hd
      cases hd
    refine (h.faithful hd).congr fun j hj => ?_
    rw [Catalogue.column_setKey, if_neg]
    intro e
    subst e
    exact ha slot c hc hkind hj

end KeyedColumns
