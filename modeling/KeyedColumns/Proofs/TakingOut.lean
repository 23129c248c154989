import KeyedColumns.Proofs.Removing

/-!
# Taking out an entry

Removing a member takes its entry out. The other entries keep their order, so those that stood after it
move up by one, and the index is told so. Which of two members goes first does not matter, and a new item
that is added and removed again leaves no trace.
-/

namespace KeyedColumns

/-! ## Entries that close up -/

/-- Where the entry at a position stands once the one at `gone` is taken out. -/
def closedUp (gone p : Nat) : Nat := if p < gone then p else p - 1

namespace Entry

variable {es : List Entry} {p : Nat} {e : Entry}

theorem getElem?_closedUp {gone : Nat} (hne : p ≠ gone) :
    (es.eraseIdx gone)[closedUp gone p]? = es[p]? := by
  unfold closedUp
  rw [List.getElem?_eraseIdx]
  by_cases hp : p < gone
  · simp [hp]
  · have hback : p - 1 + 1 = p := by omega
    rw [if_neg hp, if_neg (by omega), hback]

theorem findIdx_item (hn : (es.map (·.item)).Nodup) (hp : es[p]? = some e) :
    es.findIdx (·.item = e.item) = p := by
  have hlt : es.findIdx (·.item = e.item) < es.length :=
    List.findIdx_lt_length_of_exists ⟨e, List.mem_of_getElem? hp, by simp⟩
  have hfound : es[es.findIdx (·.item = e.item)].item = e.item := by
    simpa using List.findIdx_getElem (w := hlt)
  have hsame : (es.map (·.item))[es.findIdx (·.item = e.item)]? = (es.map (·.item))[p]? := by
    simp [hlt, hfound, hp]
  exact (List.getElem?_inj (by simpa using hlt) hn).mp hsame

end Entry

namespace Contents

/-! ## Entries that are found -/

/-- An entry stands at a position, and every way to look it up leads there. -/
structure StandsAt (c : Contents) (p : Nat) (e : Entry) : Prop where
  entry : c.entries[p]? = some e
  byPosition : c.items[p]? = some e.item
  byKey : c.find? e.key = some e.item
  firstPosition : c.index.firstPosition.find? e.key = some p
  active : e.item ∈ c.active

/-- No way to look an entry up leads to its key or to its item. -/
structure Lacks (c : Contents) (e : Entry) : Prop where
  byPosition : e.item ∉ c.items
  byKey : c.find? e.key = none
  indexed : ∀ key, c.find? key ≠ some e.item
  firstPosition : c.index.firstPosition.find? e.key = none
  active : e.item ∉ c.active

variable {column : ItemId → Column} {c : Contents} {p : Nat} {e : Entry} {i j : ItemId}

theorem Faithful.standsAt (hc : c.Faithful column) (hp : c.entries[p]? = some e) :
    c.StandsAt p e := by
  have he : e ∈ c.entries := List.mem_of_getElem? hp
  have hkey : c.find? e.key = some e.item := hc.find?_iff.mpr he
  obtain ⟨q, hq, hentry⟩ := hc.position_of_find? hkey
  obtain rfl : q = p := (KeyIndex.key_eq_iff_of_nodup hc.keys_nodup hentry hp).mp rfl
  refine ⟨hp, ?_, hkey, hq, hc.present _ (mem_members.mpr ⟨e, he, rfl⟩)⟩
  rw [hc.items_eq, members, List.getElem?_map, hp]
  rfl

theorem Faithful.lacks (hc : c.Faithful column) (hi : e.item ∉ c.members)
    (hk : e.key ∉ c.keys) : c.Lacks e := by
  have hkey : ∀ x ∈ c.entries, x.key ≠ e.key := fun x hx hxk => hk (List.mem_map.mpr ⟨x, hx, hxk⟩)
  refine ⟨hc.items_eq ▸ hi, ?_, fun key hkey => ?_, ?_, fun hactive => hi (hc.active _ hactive)⟩
  · rw [hc.find?_eq, Option.map_eq_none_iff, List.find?_eq_none]
    simpa using hkey
  · exact hi (mem_members.mpr ⟨_, hc.find?_mem hkey, rfl⟩)
  · rw [hc.firstPosition_eq, List.findIdx?_eq_none_iff]
    simpa using hkey

/-! ## Contents without one of their entries -/

/-- What becomes of contents when the entry at a position is taken out. -/
structure TakenOut (cat : Catalogue) (gone : Nat) (c d : Contents) : Prop where
  entries : d.entries = c.entries.eraseIdx gone
  others : ∀ p x, p ≠ gone → c.entries[p]? = some x → d.StandsAt (closedUp gone p) x
  lacks : ∀ x, c.entries[gone]? = some x → d.Lacks x
  exact : d.Exact cat

theorem Faithful.entries_without (hc : c.Faithful column) (hp : c.entries[p]? = some e) :
    (c.only (· ≠ e.item)).entries = c.entries.eraseIdx p := by
  rw [entries_only, ← Entry.eraseIdx_findIdx hc.members_nodup, Entry.findIdx_item hc.members_nodup hp]

theorem Settled.takenOut {cat : Catalogue} (hc : c.Settled .dedupe cat)
    (hp : c.entries[p]? = some e) : TakenOut cat p c (c.only (· ≠ e.item)) := by
  have hfaithful := hc.faithful rfl
  have hleft := hfaithful.only (· ≠ e.item)
  have hentries := hfaithful.entries_without hp
  refine ⟨hentries, fun q x hq hx => hleft.standsAt ?_, fun x hx => ?_, (hc.only _).exact⟩
  · rw [hentries, Entry.getElem?_closedUp hq, hx]
  · obtain rfl : e = x := Option.some.inj (hp.symm.trans hx)
    have hgone : e.item ∉ (c.only (· ≠ e.item)).members := by simp [mem_members_only]
    refine hleft.lacks hgone fun hk => hgone ?_
    -- What stands under the key would be the same entry, for keys come once.
    obtain ⟨y, hy, hyk⟩ := List.mem_map.mp hk
    have hmem : y ∈ c.entries := (List.mem_filter.mp hy).1
    have heq : y = e := hfaithful.eq_of_key hmem (List.mem_of_getElem? hp) hyk
    exact mem_members.mpr ⟨y, hy, congrArg Entry.item heq⟩

theorem Faithful.notMem_of_new_key (hc : c.Faithful column) (hnew : (column i).key ∉ c.keys) :
    i ∉ c.members := by
  intro hi
  obtain ⟨e, he, rfl⟩ := mem_members.mp hi
  exact hnew (List.mem_map.mpr ⟨e, he, hc.own_key e he⟩)

theorem Faithful.without_put (hc : c.Faithful column) (self : Reference)
    (hkey : (column i).key ≠ "") (hnew : (column i).key ∉ c.keys) :
    (Dedupe.put column self c i).contents.only (· ≠ i) = c := by
  have hother : ∀ e ∈ c.entries, e.item ≠ i := fun e he hei =>
    hc.notMem_of_new_key hnew (mem_members.mpr ⟨e, he, hei⟩)
  refine ((hc.put hkey).only _).eq_of_entries hc ?_
  rw [entries_only, hc.entries_put, added_of_new fun e he hek => hnew (List.mem_map.mpr ⟨e, he, hek⟩),
    List.filter_append, List.filter_eq_self.mpr fun e he => by simpa using hother e he]
  simp [Entry.own]

theorem Coherent.put_new (hc : c.Coherent) (self : Reference) (hnew : (column i).key ∉ c.keys) :
    (Dedupe.put column self c i).value = true := by
  rw [← Bool.not_eq_false, hc.put_unchanged_iff]
  exact fun hfound => hnew (hc.mem_keys_iff.mpr ⟨i, hfound⟩)

end Contents

/-! ## Two removals -/

namespace Registry

variable {config : Log.Config} {r : Registry} {slot : String} {c : Collection} {i j : ItemId}

theorem remove_remove (h : Run Steady (.empty config) r) (hc : r.collection? slot = some c)
    (hk : c.kind = .dedupe) (hi : i ∈ (r.contents c).members) (hj : j ∈ (r.contents c).members)
    (hij : i ≠ j) (first second : Mode) :
    ((r.act (.call slot (.remove (some i)) first)).1.act (.call slot (.remove (some j)) second)).1 =
      r.write c ((r.contents c).only (· ∉ [i, j])) ∧
    (r.act (.call slot (.remove (some i)) first)).1.outcome (.call slot (.remove (some j)) second) =
      .reply (second.success true (.flag true)) := by
  have hboth : ∀ k ∈ [i, j], k ∈ (r.contents c).members := by simp [hi, hj]
  obtain ⟨hleft, htold⟩ := answerAll_removing h hc hk (by simpa using hij) hboth
    (Function.update (fun _ => second) i first)
  simp only [List.map_cons, List.map_nil, removing, answerAll, answer, Function.update_self,
    Function.update_of_ne hij.symm, List.cons.injEq, and_true] at hleft htold
  exact ⟨hleft, htold.2⟩

theorem add_remove (h : Run Steady (.empty config) r) (hc : r.collection? slot = some c)
    (hk : c.kind = .dedupe) (hi : r.catalogue.knows i) (hkey : (r.catalogue.column i).key ≠ "")
    (hnew : (r.catalogue.column i).key ∉ (r.contents c).keys) {given : Option String}
    (hgiven : ∀ key ∈ given, key = (r.catalogue.column i).key) (adding removing : Mode) :
    r.outcome (.call slot (.add (some i) given) adding) =
      .reply (adding.success true (.flag true)) ∧
    (r.act (.call slot (.add (some i) given) adding)).1.outcome
      (.call slot (.remove (some i)) removing) = .reply (removing.success true (.flag true)) ∧
    ((r.act (.call slot (.add (some i) given) adding)).1.act
      (.call slot (.remove (some i)) removing)).1 = r := by
  have hfor := Call.isFor_of_dedupe (.add (some i) given) hk
  have hknown := knows_singleton hi
  have hfaithful := h.faithful hc hk
  obtain ⟨d, hd, hvalue, hcontents⟩ := r.attempt_add_given slot hk hgiven hkey
  have hrun := h.act (.call slot (.add (some i) given) adding) trivial
  have hseen := contents_act_call_ok h.reachable hc hfor hknown hd adding
  have hheld : (r.act (.call slot (.add (some i) given) adding)).1.collection? slot = some c := by
    rw [act_call_ok hc hfor hknown hd]
    exact hc
  have hmember : i ∈ ((r.act (.call slot (.add (some i) given) adding)).1.contents c).members := by
    rw [hseen, hcontents, Contents.mem_members, hfaithful.entries_put]
    exact ⟨Entry.own r.catalogue.column i, Entry.mem_placed.mpr (.inl rfl), rfl⟩
  obtain ⟨hleft, htold⟩ := act_remove hrun hheld hk hmember removing
  refine ⟨?_, htold, ?_⟩
  · rw [outcome_call_ok hc hfor hknown hd, hvalue, hfaithful.put_new _ hnew]
  · rw [hleft, hseen, hcontents, hfaithful.without_put _ hkey hnew,
      act_call_ok hc hfor hknown hd, write_write, write_contents]

end Registry

/-! ## Removing a member -/

variable {config : Log.Config} {r : Registry} {slot : String} {c : Collection}

/--
As long as members of deduplicating collections keep their keys, removing a member takes out its entry and
nothing else, and the entries after it move up by one. Two members can be removed in either order, with the
same result to all who see it; and a valid item under a new key that is added and removed again leaves
everything as it was.
-/
theorem removes_one_entry (h : Run Steady (.empty config) r) (hc : r.collection? slot = some c)
    (hk : c.kind = .dedupe) :
    (∀ p e mode, (r.contents c).entries[p]? = some e →
      r.outcome (.call slot (.remove (some e.item)) mode) =
        .reply (mode.success true (.flag true)) ∧
      (r.contents c).TakenOut r.catalogue p
        ((r.act (.call slot (.remove (some e.item)) mode)).1.contents c)) ∧
    (∀ i j first second, i ∈ (r.contents c).members → j ∈ (r.contents c).members → i ≠ j →
      (r.act (.call slot (.remove (some i)) first)).1.outcome
        (.call slot (.remove (some j)) second) = .reply (second.success true (.flag true)) ∧
      ((r.act (.call slot (.remove (some i)) first)).1.act
        (.call slot (.remove (some j)) second)).1 =
      ((r.act (.call slot (.remove (some j)) second)).1.act
        (.call slot (.remove (some i)) first)).1) ∧
    (∀ i given adding removing, r.catalogue.knows i → (r.catalogue.column i).key ≠ "" →
      (r.catalogue.column i).key ∉ (r.contents c).keys →
      (∀ key ∈ given, key = (r.catalogue.column i).key) →
      r.outcome (.call slot (.add (some i) given) adding) =
        .reply (adding.success true (.flag true)) ∧
      (r.act (.call slot (.add (some i) given) adding)).1.outcome
        (.call slot (.remove (some i)) removing) = .reply (removing.success true (.flag true)) ∧
      ((r.act (.call slot (.add (some i) given) adding)).1.act
        (.call slot (.remove (some i)) removing)).1 = r) := by
  refine ⟨fun p e mode hp => ?_, fun i j first second hi hj hij => ?_,
    fun i given adding removing hi hkey hnew hgiven =>
      Registry.add_remove h hc hk hi hkey hnew hgiven adding removing⟩
  · have hmember : e.item ∈ (r.contents c).members :=
      Contents.mem_members.mpr ⟨e, List.mem_of_getElem? hp, rfl⟩
    obtain ⟨hleft, htold⟩ := Registry.act_remove h hc hk hmember mode
    rw [hleft, h.reachable.contents_write hc hc, if_pos rfl]
    exact ⟨htold, (h.settled slot c hc hk).takenOut hp⟩
  · obtain ⟨hleft, htold⟩ := Registry.remove_remove h hc hk hi hj hij first second
    obtain ⟨hleft', -⟩ := Registry.remove_remove h hc hk hj hi hij.symm second first
    have hsame : (r.contents c).only (· ∉ [i, j]) = (r.contents c).only (· ∉ [j, i]) :=
      Contents.only_congr fun k _ => by simp [and_comm]
    exact ⟨htold, by rw [hleft, hleft', hsame]⟩

/-- The middle of three entries goes; the outer ones go in either order; and an item that got its key
while only a lenient collection held it comes and goes. -/
theorem removes_one_entry_of_middle : ∃ config r c, Run Steady (.empty config) r ∧
    r.collection? "d" = some c ∧
    (r.contents c).entries = [⟨"a", .made "a"⟩, ⟨"b", .made "b"⟩, ⟨"x", .made "x"⟩] ∧
    (r.contents c).TakenOut r.catalogue 1
      ((r.act (.call "d" (.remove (some (.made "b"))) .raising)).1.contents c) ∧
    ((r.act (.call "d" (.remove (some (.made "b"))) .raising)).1.contents c).StandsAt 1
      ⟨"x", .made "x"⟩ ∧
    ((r.act (.call "d" (.remove (some (.made "a"))) .raising)).1.act
      (.call "d" (.remove (some (.made "x"))) (.code .success))).1 =
    ((r.act (.call "d" (.remove (some (.made "x"))) (.code .success))).1.act
      (.call "d" (.remove (some (.made "a"))) .raising)).1 ∧
    ((r.act (.call "d" (.add (some (.made "n")) (some "z")) .raising)).1.contents c).keys =
      ["a", "b", "x", "z"] ∧
    ((r.act (.call "d" (.add (some (.made "n")) (some "z")) .raising)).1.act
      (.call "d" (.remove (some (.made "n"))) .raising)).1 = r := by
  have h : Run Steady (.empty (.ofDefault .info false)) _ := Run.refl
    |>.act (.makeItem "a" (.named "a")) trivial
    |>.act (.makeItem "b" (.named "b")) trivial
    |>.act (.makeItem "x" (.named "x")) trivial
    |>.act (.makeItem "n" (.named "a")) trivial
    |>.act (.create "d" .dedupe [("a", some (.made "a")), ("b", some (.made "b")),
      ("x", some (.made "x"))] none .raising) trivial
    |>.act (.create "l" .lenient [("p", some (.made "n"))] none .raising) trivial
    |>.act (.setKey (.made "n") "z") (steady_setKey (by decide))
  obtain ⟨hremove, hboth, hnew⟩ := (fun c (hc : Registry.collection? _ "d" = some c) hk =>
    removes_one_entry h hc hk) ⟨.dedupe, ⟨⟨0⟩, ⟨0⟩, ⟨0⟩⟩, ⟨none, .collection⟩⟩ (by decide) rfl
  obtain ⟨-, hout⟩ := hremove 1 ⟨"b", .made "b"⟩ .raising (by decide)
  obtain ⟨-, horder⟩ := hboth (.made "a") (.made "x") .raising (.code .success) (by decide)
    (by decide) (by decide)
  obtain ⟨-, -, hback⟩ := hnew (.made "n") (some "z") .raising .raising (by decide) (by decide)
    (by decide) (by decide)
  exact ⟨_, _, _, h, by decide, by decide, hout, hout.others 2 _ (by decide) (by decide), horder,
    by decide, hback⟩

end KeyedColumns
