import KeyedColumns.Proofs.Placing
import KeyedColumns.Proofs.Steadiness
import KeyedColumns.Proofs.Visiting

/-!
# Removing while iterating

An iteration that asks for something about each item it visits comes to asking for that about one item
after the other. Where it asks to remove some of the items, the entries of the others are left, in their
order, whichever of them go.
-/

namespace KeyedColumns

open Registry (answer answerAll bodyAt walk)

/-! ## Entries of some items -/

theorem Entry.eraseIdx_findIdx {es : List Entry} (hn : (es.map (·.item)).Nodup) (i : ItemId) :
    es.eraseIdx (es.findIdx (·.item = i)) = es.filter (·.item ≠ i) := by
  induction es with
  | nil => rfl
  | cons e es ih =>
    rw [List.map_cons, List.nodup_cons] at hn
    by_cases hi : e.item = i
    · -- The item stands nowhere else, so nothing else goes.
      have hrest : ∀ x ∈ es, x.item ≠ i := fun x hx hxi =>
        hn.1 (List.mem_map.mpr ⟨x, hx, hxi.trans hi.symm⟩)
      rw [List.filter_cons_of_neg (by simpa using hi),
        List.filter_eq_self.mpr fun x hx => by simpa using hrest x hx]
      simp [List.findIdx_cons, hi]
    · rw [List.filter_cons_of_pos (by simpa using hi), ← ih hn.2]
      simp [List.findIdx_cons, hi]

namespace Contents

/-- The contents that are left when some of the items are kept. -/
def only (kept : ItemId → Bool) (c : Contents) : Contents :=
  (c.withEntries (c.entries.filter (kept ·.item))).reindex

variable {column : ItemId → Column} {c : Contents} {kept : ItemId → Bool} {i : ItemId}

@[simp] theorem entries_only : (c.only kept).entries = c.entries.filter (kept ·.item) := rfl

theorem members_only : (c.only kept).members = c.members.filter kept := by
  simp [members, List.filter_map, Function.comp_def]

theorem mem_members_only {j : ItemId} : j ∈ (c.only kept).members ↔ j ∈ c.members ∧ kept j := by
  rw [members_only, List.mem_filter]

theorem only_only {others : ItemId → Bool} :
    (c.only kept).only others = c.only fun i => kept i && others i :=
  reindex_congr (by simp [List.filter_filter, Bool.and_comm])

theorem only_congr {others : ItemId → Bool} (h : ∀ i ∈ c.members, kept i = others i) :
    c.only kept = c.only others :=
  reindex_congr (List.filter_congr fun e he => h e.item (mem_members.mpr ⟨e, he, rfl⟩))

theorem Faithful.only (hc : c.Faithful column) (kept : ItemId → Bool) :
    (c.only kept).Faithful column :=
  have hsub : (c.entries.filter (kept ·.item)).Sublist c.entries := List.filter_sublist
  faithful_reindex (hc.keys_nodup.sublist (hsub.map _)) (fun e he => hc.key_ne e (hsub.mem he))
    fun e he => hc.own_key e (hsub.mem he)

theorem Faithful.only_eq_self (hc : c.Faithful column) (h : ∀ i ∈ c.members, kept i) :
    c.only kept = c :=
  (hc.only kept).eq_of_entries hc <|
    List.filter_eq_self.mpr fun e he => h e.item (mem_members.mpr ⟨e, he, rfl⟩)

theorem Settled.only {cat : Catalogue} (hc : c.Settled .dedupe cat) (kept : ItemId → Bool) :
    (c.only kept).Settled .dedupe cat where
  toCoherent := coherent_reindex _
  known := fun i hi => hc.known i (mem_members_only.mp hi).1
  deduplicated := fun hd => ((hc.faithful hd).only kept).toDeduplicated
  faithful := fun hd => (hc.faithful hd).only kept

theorem Faithful.remove_eq (hc : c.Faithful column) (self : Reference) (hi : i ∈ c.members) :
    ∃ d, Dedupe.tryRemove column self c (some i) = .ok d ∧ d.value = true ∧
      d.contents = c.only (· ≠ i) := by
  unfold Dedupe.tryRemove Dedupe.takeOut
  simp only [hc.present i hi, if_true, Entry.eraseIdx_findIdx hc.members_nodup]
  exact ⟨_, rfl, rfl, rfl⟩

end Contents

/-! ## Removing one item after the other -/

namespace Registry

variable {config : Log.Config} {r : Registry} {slot : String} {c : Collection} {i : ItemId}

theorem attempt_remove (r : Registry) (slot : String) (hk : c.kind = .dedupe)
    (hc : (r.contents c).Faithful r.catalogue.column) (hi : i ∈ (r.contents c).members) :
    ∃ d, r.attempt slot c (.remove (some i)) = .ok d ∧ d.value = .flag true ∧
      d.contents = (r.contents c).only (· ≠ i) := by
  obtain ⟨d, hd, hvalue, hcontents⟩ := hc.remove_eq (.slot slot) hi
  unfold attempt
  rw [hk]
  simp only [Call.attempt, hd]
  exact ⟨_, rfl, congrArg Result.flag hvalue, hcontents⟩

theorem act_remove (h : Run Steady (.empty config) r) (hc : r.collection? slot = some c)
    (hk : c.kind = .dedupe) (hi : i ∈ (r.contents c).members) (mode : Mode) :
    (r.act (.call slot (.remove (some i)) mode)).1 = r.write c ((r.contents c).only (· ≠ i)) ∧
    r.outcome (.call slot (.remove (some i)) mode) = .reply (mode.success true (.flag true)) := by
  obtain ⟨d, hd, hvalue, hcontents⟩ := r.attempt_remove slot hk (h.faithful hc hk) hi
  have hfor := Call.isFor_of_dedupe (.remove (some i)) hk
  have hknown := knows_singleton ((h.settled slot c hc hk).toSound.known i hi)
  rw [act_call_ok hc hfor hknown hd, outcome_call_ok hc hfor hknown hd, hcontents, hvalue]
  exact ⟨rfl, rfl⟩

/-- Asks a collection to remove an item. -/
def removing (slot : String) (mode : ItemId → Mode) (i : ItemId) : Request :=
  .act (.call slot (.remove (some i)) (mode i))

/-- Whatever members are removed, each of them once, the entries of the others are left. -/
theorem answerAll_removing (h : Run Steady (.empty config) r) (hc : r.collection? slot = some c)
    (hk : c.kind = .dedupe) {is : List ItemId} (hn : is.Nodup)
    (hi : ∀ i ∈ is, i ∈ (r.contents c).members) (mode : ItemId → Mode) :
    (answerAll (is.map (removing slot mode)) r).1 = r.write c ((r.contents c).only (· ∉ is)) ∧
    (answerAll (is.map (removing slot mode)) r).2.map (·.outcome) =
      is.map fun i => .reply ((mode i).success true (.flag true)) := by
  induction is generalizing r with
  | nil =>
    have hself : (r.contents c).only (· ∉ ([] : List ItemId)) = r.contents c :=
      (h.faithful hc hk).only_eq_self fun i _ => by simp
    rw [hself, r.write_contents]
    exact ⟨rfl, rfl⟩
  | cons i rest ih =>
    rw [List.nodup_cons] at hn
    rw [List.forall_mem_cons] at hi
    obtain ⟨hfirst, htold⟩ := act_remove h hc hk hi.1 (mode i)
    have hseen : ((r.act (.call slot (.remove (some i)) (mode i))).1.contents c) =
        (r.contents c).only (· ≠ i) := by
      rw [hfirst]
      exact (h.reachable.contents_write hc hc _).trans (if_pos rfl)
    have hrun := h.act (.call slot (.remove (some i)) (mode i)) trivial
    have hheld : (r.act (.call slot (.remove (some i)) (mode i))).1.collection? slot = some c := by
      rw [hfirst]
      exact hc
    -- The others come once and differ from the first, so they are there when their turn comes.
    have hthere : ∀ j ∈ rest,
        j ∈ ((r.act (.call slot (.remove (some i)) (mode i))).1.contents c).members := by
      intro j hj
      rw [hseen, Contents.mem_members_only]
      exact ⟨hi.2 j hj, by simpa using fun e : j = i => hn.1 (e ▸ hj)⟩
    obtain ⟨hrest, htolds⟩ := ih hrun hheld hn.2 hthere
    have hboth : (r.contents c).only (fun j => decide (j ≠ i) && decide (j ∉ rest)) =
        (r.contents c).only (· ∉ i :: rest) :=
      Contents.only_congr fun j _ => by simp
    simp only [List.map_cons, removing, answerAll, answer] at hrest htolds ⊢
    refine ⟨?_, ?_⟩
    · rw [hrest, hseen, hfirst, write_write, Contents.only_only, hboth]
    · rw [htolds]
      exact congrArg (· :: _) htold

/-! ## Asking about each item that is visited -/

/-- The body of an iteration that makes some requests about the item at each index. -/
def bodyFor (requests : ItemId → List Request) (items : List ItemId) : List (Nat × List Request) :=
  items.zipIdx.map fun p => (p.2, requests p.1)

variable {requests : ItemId → List Request} {items : List ItemId}

theorem bodyAt_zipIdx {n : Nat} (hi : items[n]? = some i) (k : Nat) (r : Registry) :
    bodyAt ((items.zipIdx k).map fun p => (p.2, requests p.1)) (k + n) r =
      answerAll (requests i) r := by
  induction items generalizing k n with
  | nil => simp at hi
  | cons j rest ih =>
    rw [List.zipIdx_cons, List.map_cons, bodyAt]
    cases n with
    | zero =>
      obtain rfl : j = i := by simpa using hi
      rw [Nat.add_zero, if_pos rfl, answerPart]
    | succ n =>
      rw [if_neg (by simp), ← ih (by simpa using hi) (k + 1)]
      congr 1
      omega

theorem bodyAt_bodyFor {n : Nat} (hi : items[n]? = some i) (r : Registry) :
    bodyAt (bodyFor requests items) n r = answerAll (requests i) r := by
  have h : bodyAt (bodyFor requests items) (0 + n) r = _ := bodyAt_zipIdx hi 0 r
  rwa [Nat.zero_add] at h

theorem answerAll_append (qs others : List Request) (r : Registry) :
    answerAll (qs ++ others) r =
      ((answerAll others (answerAll qs r).1).1,
        (answerAll qs r).2 ++ (answerAll others (answerAll qs r).1).2) := by
  induction qs generalizing r with
  | nil => rfl
  | cons q qs ih => simp [answerAll, ih]

theorem walk_bodyFor (s : Snapshot) {fuel n : Nat} (h : n + fuel = s.items.length) (r : Registry) :
    ((walk (bodyAt (bodyFor requests s.items)) fuel ⟨some s, n⟩ r).registry,
      (walk (bodyAt (bodyFor requests s.items)) fuel ⟨some s, n⟩ r).answers) =
      answerAll ((s.items.drop n).flatMap requests) r := by
  induction fuel generalizing n r with
  | zero =>
    rw [List.drop_eq_nil_of_le (by omega)]
    rfl
  | succ fuel ih =>
    have hlt : n < s.items.length := by omega
    have hgoes := Iterator.goes_on hlt
    unfold walk
    simp only [hgoes, if_false, Bool.false_eq_true, bodyAt_bodyFor (List.getElem?_eq_getElem hlt)]
    rw [List.drop_eq_getElem_cons hlt, List.flatMap_cons, answerAll_append,
      ← ih (n := n + 1) (by omega)]
    rfl

theorem iterate_bodyFor (hc : (r.contents c).Coherent) (requests : ItemId → List Request) :
    ((r.iterate c (bodyAt (bodyFor requests (r.contents c).members))).1,
      (r.iterate c (bodyAt (bodyFor requests (r.contents c).members))).2.inner) =
      answerAll ((r.contents c).members.flatMap requests) (r.begin c).2 := by
  rw [← hc.items_eq]
  unfold iterate
  obtain ⟨hitems, hbegin⟩ | ⟨-, hbegin⟩ := begin_cases hc
  · rw [hbegin, hitems]
    rfl
  · rw [hbegin]
    exact walk_bodyFor ⟨r.snapshots, (r.contents c).items⟩ (Nat.zero_add _) _

/-- The body of an iteration that removes each item it visits, unless that is kept. -/
def sifting (slot : String) (kept : ItemId → Bool) (mode : ItemId → Mode) (items : List ItemId) :
    List (Nat × List Request) :=
  bodyFor (fun i => if kept i then [] else [removing slot mode i]) items

theorem flatMap_sifting (kept : ItemId → Bool) (mode : ItemId → Mode) (items : List ItemId) :
    (items.flatMap fun i => if kept i then [] else [removing slot mode i]) =
      (items.filter (!kept ·)).map (removing slot mode) := by
  induction items with
  | nil => rfl
  | cons i rest ih => cases hi : kept i <;> simp [hi, ih]

theorem iterate_sifting (h : Run Steady (.empty config) r) (hc : r.collection? slot = some c)
    (hk : c.kind = .dedupe) (kept : ItemId → Bool) (mode : ItemId → Mode) :
    (r.iterate c (bodyAt (sifting slot kept mode (r.contents c).members))).1 =
      (r.begin c).2.write c ((r.contents c).only kept) ∧
    (r.iterate c (bodyAt (sifting slot kept mode (r.contents c).members))).2.inner.map
      (·.outcome) = ((r.contents c).members.filter (!kept ·)).map fun i =>
        .reply ((mode i).success true (.flag true)) := by
  have hsame := same_begin r c
  have hfaithful := h.faithful hc hk
  have hheld : (r.begin c).2.collection? slot = some c := (hsame.collection? slot).trans hc
  have hgo : ∀ i ∈ (r.contents c).members.filter (!kept ·),
      i ∈ ((r.begin c).2.contents c).members := by
    rw [hsame.contents]
    exact fun i hi => (List.mem_filter.mp hi).1
  obtain ⟨hleft, htold⟩ := answerAll_removing (h.begin c) hheld hk
    (hfaithful.members_nodup.filter (!kept ·)) hgo mode
  have hstay : (r.contents c).only (· ∉ (r.contents c).members.filter (!kept ·)) =
      (r.contents c).only kept :=
    Contents.only_congr fun i hi => by simp [hi]
  have hiterate := iterate_bodyFor hfaithful.toCoherent
    fun i => if kept i then [] else [removing slot mode i]
  rw [flatMap_sifting] at hiterate
  obtain ⟨hregistry, hinner⟩ := Prod.ext_iff.mp hiterate
  refine ⟨hregistry.trans ?_, (congrArg (List.map (·.outcome)) hinner).trans htold⟩
  rw [hleft, hsame.contents, hstay]

end Registry

/-! ## Sifting a collection -/

/-- What becomes of contents of which only some items are kept. -/
structure Sifted (cat : Catalogue) (kept : ItemId → Bool) (c d : Contents) : Prop where
  entries : d.entries = c.entries.filter (kept ·.item)
  exact : d.Exact cat

open Registry (sifting)

variable {config : Log.Config} {r : Registry} {slot : String} {c : Collection}

/--
As long as members of deduplicating collections keep their keys, an iteration that removes each item it
visits, unless that is kept, visits every item once and in order. Every removal succeeds, and what is left
to all that show the collection are the entries of the items that are kept, in their order.
-/
theorem removes_on_the_way (h : Run Steady (.empty config) r) (hc : r.collection? slot = some c)
    (hk : c.kind = .dedupe) (kept : ItemId → Bool) (mode : ItemId → Mode) :
    (answer (.iterate slot (sifting slot kept mode (r.contents c).members)) r).2.outcome =
      .visited (r.contents c).members ∧
    (r.contents c).members.Nodup ∧
    (answer (.iterate slot (sifting slot kept mode (r.contents c).members)) r).2.inner.map
      (·.outcome) = ((r.contents c).members.filter (!kept ·)).map (fun i =>
        .reply ((mode i).success true (.flag true))) ∧
    ∀ t d, r.collection? t = some d → d.handle = c.handle →
      (answer (.iterate slot (sifting slot kept mode (r.contents c).members)) r).1.collection? t =
        some d ∧
      Sifted r.catalogue kept (r.contents c)
        ((answer (.iterate slot (sifting slot kept mode (r.contents c).members)) r).1.contents d) := by
  have hfaithful := h.faithful hc hk
  have hiterate : answer (.iterate slot (sifting slot kept mode (r.contents c).members)) r =
      r.iterate c (bodyAt (sifting slot kept mode (r.contents c).members)) := by
    rw [answer, hc]
  obtain ⟨hleft, htold⟩ := Registry.iterate_sifting h hc hk kept mode
  obtain ⟨-, hvisited⟩ := loop_iterate
    (bodyAt (sifting slot kept mode (r.contents c).members)) hfaithful.toCoherent
  have hsame := Registry.same_begin r c
  rw [hiterate, hvisited, htold, hleft, hfaithful.toCoherent.items_eq]
  refine ⟨rfl, hfaithful.members_nodup, rfl, fun t d hd hh => ⟨?_, ?_⟩⟩
  · exact (hsame.collection? t).trans hd
  · rw [(h.begin c).reachable.contents_write ((hsame.collection? slot).trans hc)
      ((hsame.collection? t).trans hd), if_pos hh]
    exact ⟨rfl, ((h.settled slot c hc hk).only kept).exact⟩

/-- The first item, the last and two neighbours go, as a view shows it, while the callers of the removals
learn of failures in different ways. -/
theorem removes_on_the_way_of_neighbours : ∃ config r c v r' a, Run Steady (.empty config) r ∧
    r.collection? "d" = some c ∧ r.collection? "v" = some v ∧ v.handle = c.handle ∧
    answer (.iterate "d" (sifting "d" (· ∈ [.made "b", .made "e"])
      (fun i => if i = .made "a" then .code (.failed .nullItem) else .raising)
      [.made "a", .made "b", .made "c", .made "d", .made "e", .made "f"])) r = (r', a) ∧
    a.outcome =
      .visited [.made "a", .made "b", .made "c", .made "d", .made "e", .made "f"] ∧
    a.inner.map (·.outcome) = [.reply (.coded (.flag true) .success),
      .reply (.returned (.flag true)), .reply (.returned (.flag true)),
      .reply (.returned (.flag true))] ∧
    r'.collection? "v" = some v ∧
    (r'.contents v).entries = [⟨"b", .made "b"⟩, ⟨"e", .made "e"⟩] ∧
    (r'.contents v).Exact r.catalogue := by
  have h : Run Steady (.empty (.ofDefault .info false)) _ := Run.refl
    |>.act (.makeItem "a" (.named "a")) trivial
    |>.act (.makeItem "b" (.named "b")) trivial
    |>.act (.makeItem "c" (.named "c")) trivial
    |>.act (.makeItem "d" (.named "d")) trivial
    |>.act (.makeItem "e" (.named "e")) trivial
    |>.act (.makeItem "f" (.named "f")) trivial
    |>.act (.create "d" .dedupe [("a", some (.made "a")), ("b", some (.made "b")),
      ("c", some (.made "c")), ("d", some (.made "d")), ("e", some (.made "e")),
      ("f", some (.made "f"))] none .raising) trivial
    |>.act (.freeze "v" "d") trivial
  have hremoves := fun c (hc : Registry.collection? _ "d" = some c) hk =>
    removes_on_the_way h hc hk (· ∈ [.made "b", .made "e"])
      fun i => if i = .made "a" then .code (.failed .nullItem) else .raising
  obtain ⟨hvisited, -, htold, hleft⟩ := hremoves ⟨.dedupe, ⟨⟨0⟩, ⟨0⟩, ⟨0⟩⟩, ⟨none, .collection⟩⟩
    (by decide) rfl
  obtain ⟨hheld, hentries, hexact⟩ := hleft "v" ⟨.view, ⟨⟨0⟩, ⟨0⟩, ⟨0⟩⟩, ⟨none, .collection⟩⟩
    (by decide) rfl
  exact ⟨_, _, ⟨.dedupe, ⟨⟨0⟩, ⟨0⟩, ⟨0⟩⟩, ⟨none, .collection⟩⟩,
    ⟨.view, ⟨⟨0⟩, ⟨0⟩, ⟨0⟩⟩, ⟨none, .collection⟩⟩, _, _, h, by decide, by decide, rfl, rfl,
    hvisited, htold.trans rfl, hheld, hentries.trans rfl, hexact⟩

end KeyedColumns
