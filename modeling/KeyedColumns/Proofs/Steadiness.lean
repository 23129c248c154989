import KeyedColumns.Proofs.Frame
import KeyedColumns.Proofs.Representation

/-!
# Deduplicating collections whose members keep their keys

A deduplicating collection is represented exactly as long as no member of such a collection gets another
key. It does not matter to it what becomes of the items of other collections: of lenient ones, and of
views, even of a view that is all that is left of a deduplicating collection.
-/

namespace KeyedColumns

/-- Any action but giving a key to an item that stands in a deduplicating collection. -/
def Steady (r : Registry) : Action → Prop
  | .setKey i _ => ∀ slot c, r.collection? slot = some c → c.kind = .dedupe →
    i ∉ (r.contents c).members
  | _ => True

/-- The contents of every deduplicating collection are settled. -/
def Registry.Settled (r : Registry) : Prop :=
  ∀ slot c, r.collection? slot = some c → c.kind = .dedupe →
    (r.contents c).Settled .dedupe r.catalogue

variable {targets : List String} {r r' : Registry} {l l' : Lineage} {slot : String} {c : Collection}

theorem steady_setKey {i : ItemId} {key : String}
    (h : ∀ p ∈ r.slots.pairs, p.2.kind = .dedupe → i ∉ (r.contents p.2).members) :
    Steady r (.setKey i key) :=
  fun slot c hc hk => h (slot, c) (Dict.mem_pairs_of_find? hc) hk

namespace Registry.Settled

theorem established (ht : Tidy r l) (hold : r.Settled) (slot : String) (kind : Kind)
    (context : Log.Context) {contents : Contents}
    (hnew : kind = .dedupe → contents.Settled .dedupe r.catalogue) :
    (r.establish slot kind context contents).Settled := by
  intro s d hd hk
  unfold Registry.contents Registry.establish
  rcases Registry.held_establish hd with ⟨-, rfl⟩ | ⟨-, hd'⟩
  · rw [Parts.contents_push_next]
    exact hnew hk
  · rw [(r.parts.kept_push contents).contents_eq (ht.held s d hd')]
    exact hold s d hd' hk

/-- What shares parts with a deduplicating collection is deduplicating too, or a view, by which nothing
changes. -/
theorem written (ht : Tidy r l) (hold : r.Settled) (hc : r.collection? slot = some c) {call : Call}
    (hi : ∀ i ∈ call.items, r.catalogue.knows i) {d : Done Result}
    (hd : r.attempt slot c call = .ok d) : (r.write c d.contents).Settled := by
  intro t e he hk
  rcases ht.whole t slot e c he hc with hh | hapart
  · have heq : (r.write c d.contents).contents e = d.contents := by
      unfold Registry.contents
      rw [hh]
      exact Parts.contents_write_self (ht.held slot c hc) _
    have hsame : r.contents e = r.contents c := by
      unfold Registry.contents
      rw [hh]
    have hsettled := hold t e he hk
    rw [hsame] at hsettled
    have hline : l slot = .dedupe := by
      rw [← ht.line t slot e c he hc hh]
      exact ht.lineage_of_kind he hk (by decide)
    rw [heq]
    unfold Registry.attempt at hd
    rcases ht.kind slot c hc with hview | hkind
    · rw [hview] at hd
      rw [Call.attempt_view hd]
      exact hsettled
    · rw [hkind, hline] at hd
      exact keeps_settled.changes (Call.attempt_dedupe hd hi) hsettled
  · have heq : (r.write c d.contents).contents e = r.contents e :=
      r.parts.contents_write_of_apart hapart.symm _
    rw [heq]
    exact hold t e he hk

theorem step (ht : Tidy r l) (hold : r.Settled) (h : Step Steady targets r l r' l') :
    r'.Settled := by
  cases h with
  | rearranged hp hcat _ hs =>
    intro t d hd hk
    obtain ⟨s, c, hc, hh, hkind, -⟩ := hs t d hd
    have heq : r'.contents d = r.contents c := by
      unfold Registry.contents
      rw [hp, hh]
    have hck : c.kind = .dedupe := by
      rcases hkind with e | e
      · rw [← e, hk]
      · rw [hk] at e
        cases e
    rw [hcat, heq]
    exact hold s c hc hck
  | founded slot kind context contents _ hf =>
    refine established ht hold slot kind context fun hk => ?_
    subst hk
    exact keeps_settled.founded hf
  | copied slot source c _ hc _ => exact established ht hold slot c.kind c.context (hold source c hc)
  | written slot c call mode d _ hc _ hi hd => exact written ht hold hc hi hd
  | made label column =>
    exact fun s c hc hk => (hold s c hc hk).kept (r.catalogue.kept_make label column)
  | rekeyed i key _ ha =>
    intro s c hc hk
    have hsettled := hold s c hc hk
    refine ⟨hsettled.toSound.mono fun j hj => (Catalogue.knows_setKey _ i j key).mpr (Or.inr hj), ?_⟩
    refine fun hd => (hsettled.faithful hd).congr fun j hj => ?_
    rw [Catalogue.column_setKey, if_neg]
    intro e
    subst e
    exact ha s c hc hk hj
  | restored saved restored _ m h =>
    intro u d hd hk
    rcases h.held_cases hd with ⟨t, c, -, hc, hm, hkind, hh⟩ | ⟨-, hd'⟩
    · have himage := h.tracked.image hm
      rw [← hh] at himage
      exact (hold t c hc (hkind ▸ hk)).image himage
    · have heq : r'.contents d = r.contents d := h.tracked.kept.contents_eq (ht.held u d hd')
      rw [heq]
      exact (hold u d hd' hk).kept h.tracked.items.kept

end Registry.Settled

theorem Run.reachable {allowed : Registry → Action → Prop} {config : Log.Config}
    (h : Run allowed (.empty config) r) : Reachable r :=
  ⟨config, h.mono fun _ _ _ => trivial⟩

theorem Run.settled {config : Log.Config} (h : Run Steady (.empty config) r) : r.Settled := by
  obtain ⟨l, ht⟩ := traced_of_run h
  exact (ht.holds (P := fun r _ => r.Settled) (fun _ _ _ hc => nomatch hc)
    fun _ _ _ _ _ ht hold h => hold.step ht h).2

theorem Run.settled_call {config : Log.Config} (h : Run Steady (.empty config) r)
    (hc : r.collection? slot = some c) (hk : c.kind = .dedupe) (call : Call) (mode : Mode) :
    ((r.act (.call slot call mode)).1.contents c).Settled .dedupe r.catalogue := by
  obtain ⟨l, ht⟩ := traced_of_run h
  have hw := ht.tidy.act_call hc call mode
  have hheld : (r.act (.call slot call mode)).1.collection? slot = some c := by
    rw [Registry.collection?, hw.slots]
    exact hc
  have hsettled := (h.act (.call slot call mode) trivial).settled slot c hheld hk
  rw [hw.catalogue] at hsettled
  exact hsettled

theorem Run.exact_call {config : Log.Config} (h : Run Steady (.empty config) r)
    (hc : r.collection? slot = some c) (hk : c.kind = .dedupe) (call : Call) (mode : Mode) :
    ((r.act (.call slot call mode)).1.contents c).Exact r.catalogue :=
  (h.settled_call hc hk call mode).exact

theorem Run.faithful {config : Log.Config} (h : Run Steady (.empty config) r)
    (hc : r.collection? slot = some c) (hk : c.kind = .dedupe) :
    (r.contents c).Faithful r.catalogue.column :=
  (h.settled slot c hc hk).faithful rfl

end KeyedColumns
