import KeyedColumns.Proofs.Placing
import KeyedColumns.Proofs.Steadiness

/-!
# Extending

Extending a deduplicating collection adds the items in turn, and so does a construction, to an empty
one. What comes of it is known in closed form: a key keeps its place from when it comes up first, and
the last item that has it stands there.
-/

namespace KeyedColumns

open Registry (answer answerAll)

/-- What becomes of contents to which items are added in turn. -/
structure Extended (cat : Catalogue) (is : List ItemId) (c d : Contents) : Prop where
  keys : d.keys = c.keys ++ ((is.map fun i => (cat.column i).key).filter (· ∉ c.keys)).eraseDups
  find? : ∀ k, d.find? k = (is.findRev? fun i => (cat.column i).key = k).or (c.find? k)
  exact : d.Exact cat

/-! ## One item -/

namespace Contents

variable {column : ItemId → Column} {self : Reference} {c : Contents} {is : List ItemId}

theorem Deduplicated.keys_put (hc : c.Deduplicated) (i : ItemId) :
    (Dedupe.put column self c i).contents.keys =
      if (column i).key ∈ c.keys then c.keys else c.keys ++ [(column i).key] := by
  rw [keys, hc.entries_put]
  exact keys_added hc.keys_nodup i

theorem Deduplicated.find?_put (hc : c.Deduplicated) {i : ItemId} (hk : (column i).key ≠ "")
    (k : String) :
    (Dedupe.put column self c i).contents.find? k =
      if (column i).key = k then some i else c.find? k := by
  have hd : (Dedupe.put column self c i).contents.Deduplicated := hc.put hk
  ext j
  rw [hd.find?_iff, hc.entries_put, added, Entry.mem_placed, ← hc.find?_iff]
  by_cases hik : (column i).key = k
  · simp [hik, Entry.own, eq_comm]
  · simp [hik, Ne.symm hik, Entry.own]

end Contents

/-! ## Many items -/

theorem Dedupe.each_snoc (operation : Contents → ItemId → Done Bool) (c : Contents)
    (is : List ItemId) (i : ItemId) :
    (each operation c (is ++ [i])).contents =
      (operation (each operation c is).contents i).contents := by
  induction is generalizing c with
  | nil => rfl
  | cons j rest ih => exact ih _

theorem append_eraseDups_snoc (ks news : List String) (k : String) :
    ks ++ ((news ++ [k]).filter (· ∉ ks)).eraseDups =
      if k ∈ ks ++ (news.filter (· ∉ ks)).eraseDups then ks ++ (news.filter (· ∉ ks)).eraseDups
      else ks ++ (news.filter (· ∉ ks)).eraseDups ++ [k] := by
  rw [List.filter_append, List.eraseDups_append]
  by_cases hold : k ∈ ks
  · simp [hold]
  · by_cases hnew : k ∈ news <;>
      simp [hold, hnew, List.removeAll, List.eraseDups_cons]

theorem findRev?_snoc (is : List ItemId) (i : ItemId) (p : ItemId → Bool) :
    (is ++ [i]).findRev? p = if p i then some i else is.findRev? p := by
  simp only [List.findRev?_eq_find?_reverse, List.reverse_append, List.reverse_singleton,
    List.singleton_append, List.find?_cons]
  cases p i <;> rfl

namespace Contents

variable {column : ItemId → Column} {self : Reference} {c : Contents} {is : List ItemId}

theorem Deduplicated.find?_each (hc : c.Deduplicated) (hk : ∀ i ∈ is, (column i).key ≠ "")
    (k : String) :
    (Dedupe.each (Dedupe.put column self) c is).contents.find? k =
      (is.findRev? fun i => (column i).key = k).or (c.find? k) := by
  induction is using List.reverseRecOn with
  | nil => rfl
  | append_singleton is i ih =>
    have his : ∀ j ∈ is, (column j).key ≠ "" := fun j hj => hk j (List.mem_append_left _ hj)
    have hi : (column i).key ≠ "" := hk i (List.mem_append_right _ (List.mem_singleton_self i))
    rw [Dedupe.each_snoc, (hc.each_put self his).find?_put hi, ih his, findRev?_snoc]
    by_cases hik : (column i).key = k <;> simp [hik]

theorem Deduplicated.keys_each (hc : c.Deduplicated) (hk : ∀ i ∈ is, (column i).key ≠ "") :
    (Dedupe.each (Dedupe.put column self) c is).contents.keys =
      c.keys ++ ((is.map fun i => (column i).key).filter (· ∉ c.keys)).eraseDups := by
  induction is using List.reverseRecOn with
  | nil => exact (List.append_nil _).symm
  | append_singleton is i ih =>
    have his : ∀ j ∈ is, (column j).key ≠ "" := fun j hj => hk j (List.mem_append_left _ hj)
    rw [Dedupe.each_snoc, (hc.each_put self his).keys_put, ih his, List.map_append,
      List.map_singleton, append_eraseDups_snoc]

theorem Coherent.each_unchanged_iff (hc : c.Coherent) :
    (Dedupe.each (Dedupe.put column self) c is).value = false ↔
      ∀ i ∈ is, c.find? (column i).key = some i := by
  rw [Dedupe.each_unchanged_iff fun i _ hi => contents_put_of_held (hc.put_unchanged_iff.mp hi)]
  exact forall₂_congr fun i _ => hc.put_unchanged_iff

theorem contents_each_of_held (h : ∀ i ∈ is, c.find? (column i).key = some i) :
    (Dedupe.each (Dedupe.put column self) c is).contents = c :=
  Dedupe.contents_each_of_unchanged fun i hi => contents_put_of_held (h i hi)

end Contents

/-! ## Writing to what was made just now -/

theorem Store.push_set_next {α : Type} (s : Store α) (v w : α) :
    (s.push v).set s.next w = s.push w := by
  simp [Store.set, Store.push, Store.next, Store.size]

namespace Registry

variable {r : Registry} {slot : String} {c : Collection} {is : List ItemId}

theorem establish_write (r : Registry) (slot : String) (kind : Kind) (context : Log.Context)
    (x y : Contents) :
    (r.establish slot kind context x).write ⟨kind, r.parts.next, context⟩ y =
      r.establish slot kind context y := by
  simp [write, establish, Parts.write, Parts.push, Parts.next, Store.push_set_next]

/-! ## Adding in turn -/

theorem attempt_extend (r : Registry) (slot : String) (hk : c.kind = .dedupe)
    (hkey : ∀ i ∈ is, (r.catalogue.column i).key ≠ "") :
    r.attempt slot c (.extend (is.map some)) =
      .ok ((Dedupe.each (Dedupe.put r.catalogue.column (.slot slot)) (r.contents c) is).map
        .flag) := by
  have hvalid : ∀ x ∈ (is.map some).map fun i => (i, (none : Option String)),
      ¬ Offends r.catalogue.column .dedupe x := by
    simp only [List.map_map, List.forall_mem_map]
    exact fun i hi => not_offends nofun (hkey i hi)
  have hitems : ((is.map some).map fun i => (i, (none : Option String))).filterMap (·.1) = is := by
    simp [List.filterMap_map, Function.comp_def]
  unfold attempt
  rw [hk]
  simp only [Call.attempt, Dedupe.tryExtend, Dedupe.checkAll_of_valid hvalid, hitems]
  simp [Except.map]

theorem act_extend (hc : r.collection? slot = some c) (hk : c.kind = .dedupe) (hi : r.knows is)
    (hkey : ∀ i ∈ is, (r.catalogue.column i).key ≠ "") (mode : Mode) :
    (r.act (.call slot (.extend (is.map some)) mode)).1 = r.write c
      (Dedupe.each (Dedupe.put r.catalogue.column (.slot slot)) (r.contents c) is).contents := by
  have hknows : r.knows (Call.extend (is.map some)).items := by simpa [Call.items] using hi
  exact act_call_ok hc (Call.isFor_of_dedupe _ hk) hknows (r.attempt_extend slot hk hkey) mode

/-- Only a batch that is not empty says of its success to the code. -/
theorem outcome_extend (hc : r.collection? slot = some c) (hk : c.kind = .dedupe) (hi : r.knows is)
    (hkey : ∀ i ∈ is, (r.catalogue.column i).key ≠ "") (mode : Mode) :
    r.outcome (.call slot (.extend (is.map some)) mode) = .reply (mode.success (!is.isEmpty) (.flag
      (Dedupe.each (Dedupe.put r.catalogue.column (.slot slot)) (r.contents c) is).value)) := by
  have hknows : r.knows (Call.extend (is.map some)).items := by simpa [Call.items] using hi
  rw [outcome_call hc, Call.isFor_of_dedupe _ hk, hknows, r.attempt_extend slot hk hkey]
  simp [reply, Call.Silent, hk, Done.map, ← List.isEmpty_iff]

theorem act_add {i : ItemId} (hc : r.collection? slot = some c) (hk : c.kind = .dedupe)
    (hi : r.catalogue.knows i) (hkey : (r.catalogue.column i).key ≠ "") (mode : Mode) :
    (r.act (.call slot (.add (some i) none) mode)).1 =
      r.write c (Dedupe.put r.catalogue.column (.slot slot) (r.contents c) i).contents := by
  obtain ⟨d, hd, -, hcontents⟩ := r.attempt_add slot hk hkey
  have hfor := Call.isFor_of_dedupe (.add (some i) none) hk
  rw [act_call_ok hc hfor (knows_singleton hi) hd, hcontents]

theorem answerAll_adds (h : Reachable r) (hc : r.collection? slot = some c) (hk : c.kind = .dedupe)
    (hi : r.knows is) (hkey : ∀ i ∈ is, (r.catalogue.column i).key ≠ "") (mode : Mode) :
    (answerAll (is.map fun i => .act (.call slot (.add (some i) none) mode)) r).1 = r.write c
      (Dedupe.each (Dedupe.put r.catalogue.column (.slot slot)) (r.contents c) is).contents := by
  induction is generalizing r with
  | nil => exact (r.write_contents c).symm
  | cons i rest ih =>
    have hfirst := act_add hc hk (knows_of_knows hi i List.mem_cons_self)
      (hkey i List.mem_cons_self) mode
    have hreach := h.act (.call slot (.add (some i) none) mode)
    have hrest : r.knows rest := by
      simp only [knows, List.all_cons, Bool.and_eq_true] at hi
      exact hi.2
    simp only [List.map_cons, answerAll, answer]
    rw [hfirst] at hreach ⊢
    -- The rest is added to what the first left, and writing that over it leaves no trace of it.
    have hih := ih hreach hc hrest fun j hj => hkey j (List.mem_cons_of_mem i hj)
    rw [(h.contents_write hc hc _).trans (if_pos rfl), write_write] at hih
    exact hih

/-! ## Constructing -/

theorem act_create_of_ok (r : Registry) (slot : String) {kind : Kind}
    {given : List (String × Option ItemId)} (hi : r.knows (given.filterMap (·.2)))
    {d : Done Unit} (hd : kind.construct r.catalogue.column (.slot slot) given = .ok d)
    (logger : Option Nat) (mode : Mode) :
    (r.act (.create slot kind given logger mode)).1 =
      r.establish slot kind ⟨logger, .collection⟩ d.contents := by
  rw [act_create_eq r slot kind hi]
  rw [create_eq, hd]

theorem act_create_of_valid (r : Registry) (slot : String)
    {given : List (String × Option ItemId)} (hi : r.knows (given.filterMap (·.2)))
    (hgiven : ∀ g ∈ given, ¬ Offends r.catalogue.column .dedupe (g.2, some g.1))
    (logger : Option Nat) (mode : Mode) :
    (r.act (.create slot .dedupe given logger mode)).1 =
      r.establish slot .dedupe ⟨logger, .collection⟩
        (Dedupe.each (Dedupe.put r.catalogue.column (.slot slot)) Contents.empty
          (given.filterMap (·.2))).contents := by
  obtain ⟨d, hd, hcontents⟩ : ∃ d, Kind.construct r.catalogue.column (.slot slot) .dedupe given =
      .ok d ∧ d.contents = (Dedupe.each (Dedupe.put r.catalogue.column (.slot slot)) Contents.empty
        (given.filterMap (·.2))).contents := by
    simp only [Kind.construct, Dedupe.tryConstruct, Dedupe.checkEntries_of_valid hgiven]
    exact ⟨_, rfl, rfl⟩
  rw [act_create_of_ok r slot hi hd, hcontents]

theorem map_items_of_valid {column : ItemId → Column} {given : List (String × Option ItemId)}
    (hgiven : ∀ g ∈ given, ¬ Offends column .dedupe (g.2, some g.1)) :
    given.map (·.2) = (given.filterMap (·.2)).map some := by
  rw [← (Dedupe.checkAll_ok (Dedupe.checkEntries_of_valid hgiven)).1, List.map_map]
  rfl

theorem act_create_eq_extend (r : Registry) (slot : String)
    {given : List (String × Option ItemId)} (hi : r.knows (given.filterMap (·.2)))
    (hgiven : ∀ g ∈ given, ¬ Offends r.catalogue.column .dedupe (g.2, some g.1))
    (logger : Option Nat) (mode extending : Mode) :
    (r.act (.create slot .dedupe given logger mode)).1 =
      ((r.act (.create slot .dedupe [] logger mode)).1.act
        (.call slot (.extend (given.map (·.2))) extending)).1 := by
  have hkey : ∀ i ∈ given.filterMap (·.2), (r.catalogue.column i).key ≠ "" :=
    (Dedupe.checkAll_ok (Dedupe.checkEntries_of_valid hgiven)).2
  have hempty : (r.act (.create slot .dedupe [] logger mode)).1 =
      r.establish slot .dedupe ⟨logger, .collection⟩ Contents.empty :=
    act_create_of_valid r slot rfl (List.forall_mem_nil _) logger mode
  have hheld : (r.establish slot .dedupe ⟨logger, .collection⟩ Contents.empty).collection? slot =
      some ⟨.dedupe, r.parts.next, ⟨logger, .collection⟩⟩ := by
    rw [collection?_establish, if_pos rfl]
  have hstart : (r.establish slot .dedupe ⟨logger, .collection⟩ Contents.empty).contents
      ⟨.dedupe, r.parts.next, ⟨logger, .collection⟩⟩ = Contents.empty :=
    r.parts.contents_push_next Contents.empty
  rw [act_create_of_valid r slot hi hgiven, hempty, map_items_of_valid hgiven,
    act_extend hheld rfl hi hkey, hstart, establish_write]
  rfl

end Registry

/-! ## Extending as adding in turn -/

variable {config : Log.Config} {r : Registry} {slot : String} {c : Collection} {is : List ItemId}

/--
As long as members of deduplicating collections keep their keys, extending by items whose keys say
something leaves what adding each of them in turn leaves. Keys that are new come after the others in
the order in which they come up, and under each key stands the last item that has it. It says that
nothing changed just if every item stood under its key already, and then nothing did. A construction
from valid entries leaves what extending an empty collection by their items leaves.
-/
theorem extends_as_adds (h : Run Steady (.empty config) r) (hc : r.collection? slot = some c)
    (hk : c.kind = .dedupe) (hi : r.knows is) (hkey : ∀ i ∈ is, (r.catalogue.column i).key ≠ "")
    (extending adding : Mode) :
    (r.act (.call slot (.extend (is.map some)) extending)).1 =
      (answerAll (is.map fun i => .act (.call slot (.add (some i) none) adding)) r).1 ∧
    Extended r.catalogue is (r.contents c)
      ((r.act (.call slot (.extend (is.map some)) extending)).1.contents c) ∧
    (∃ changed, r.outcome (.call slot (.extend (is.map some)) extending) =
        .reply (extending.success (!is.isEmpty) (.flag changed)) ∧
      (changed = false ↔
        ∀ i ∈ is, ⟨(r.catalogue.column i).key, i⟩ ∈ (r.contents c).entries) ∧
      (changed = false → (r.act (.call slot (.extend (is.map some)) extending)).1 = r)) ∧
    ∀ new given logger, r.knows (given.filterMap (·.2)) →
      (∀ g ∈ given, ¬ Offends r.catalogue.column .dedupe (g.2, some g.1)) →
      (r.act (.create new .dedupe given logger extending)).1 =
        ((r.act (.create new .dedupe [] logger extending)).1.act
          (.call new (.extend (given.map (·.2))) extending)).1 := by
  have hfaithful := h.faithful hc hk
  have hexact := h.exact_call hc hk (.extend (is.map some)) extending
  have hfor := Call.isFor_of_dedupe (.extend (is.map some)) hk
  have hknows : r.knows (Call.extend (is.map some)).items := by simpa [Call.items] using hi
  have hheld : (∀ i ∈ is, (r.contents c).find? (r.catalogue.column i).key = some i) ↔
      ∀ i ∈ is, ⟨(r.catalogue.column i).key, i⟩ ∈ (r.contents c).entries :=
    forall₂_congr fun i _ => hfaithful.find?_iff
  rw [Registry.act_extend hc hk hi hkey extending] at hexact ⊢
  rw [h.reachable.contents_write hc hc, if_pos rfl] at hexact ⊢
  refine ⟨(Registry.answerAll_adds h.reachable hc hk hi hkey adding).symm, ?_, ?_, ?_⟩
  · exact ⟨hfaithful.keys_each hkey, hfaithful.find?_each hkey, hexact⟩
  · refine ⟨_, Registry.outcome_extend hc hk hi hkey extending,
      hfaithful.each_unchanged_iff.trans hheld, fun hsame => ?_⟩
    rw [Contents.contents_each_of_held (hfaithful.each_unchanged_iff.mp hsame), r.write_contents]
  · exact fun new given logger hgiven hvalid =>
      r.act_create_eq_extend new hgiven hvalid logger extending extending

/-- Items of which two share a new key, one comes in the place of another, and one is there already;
then nothing but items that are there; and a construction in which one item takes the place of another. -/
theorem extends_as_adds_of_repeated : ∃ config r c, Run Steady (.empty config) r ∧
    r.collection? "d" = some c ∧
    (r.contents c).entries = [⟨"a", .made "a"⟩, ⟨"b", .made "b"⟩] ∧
    (r.act (.call "d" (.extend ([.made "p", .made "q", .made "b", .made "s"].map some))
      .raising)).1 =
      (answerAll ([.made "p", .made "q", .made "b", .made "s"].map fun i =>
        .act (.call "d" (.add (some i) none) .raising)) r).1 ∧
    ((r.act (.call "d" (.extend ([.made "p", .made "q", .made "b", .made "s"].map some))
      .raising)).1.contents c).entries =
        [⟨"a", .made "q"⟩, ⟨"b", .made "b"⟩, ⟨"z", .made "s"⟩] ∧
    (∀ k, ((r.act (.call "d" (.extend ([.made "p", .made "q", .made "b", .made "s"].map some))
      .raising)).1.contents c).find? k =
        ([.made "p", .made "q", .made "b", .made "s"].findRev? fun i =>
          (r.catalogue.column i).key = k).or ((r.contents c).find? k)) ∧
    r.outcome (.call "d" (.extend ([.made "b", .made "a"].map some)) .raising) =
      .reply (.returned (.flag false)) ∧
    (r.act (.call "d" (.extend ([.made "b", .made "a"].map some)) .raising)).1 = r ∧
    (r.act (.create "e" .dedupe [("z", some (.made "p")), ("z", some (.made "s"))] none
      .raising)).1 =
      ((r.act (.create "e" .dedupe [] none .raising)).1.act
        (.call "e" (.extend [some (.made "p"), some (.made "s")]) .raising)).1 := by
  have h : Run Steady (.empty (.ofDefault .info false)) _ := Run.refl
    |>.act (.makeItem "a" (.named "a")) trivial
    |>.act (.makeItem "b" (.named "b")) trivial
    |>.act (.makeItem "p" (.named "z")) trivial
    |>.act (.makeItem "q" (.named "a")) trivial
    |>.act (.makeItem "s" (.named "z")) trivial
    |>.act (.create "d" .dedupe [("a", some (.made "a")), ("b", some (.made "b"))] none .raising)
      trivial
  have hagree := fun c is (hc : Registry.collection? _ "d" = some c) hk
      (hi : Registry.knows _ is) hkey =>
    extends_as_adds h hc hk hi hkey .raising .raising
  obtain ⟨hadds, hextended, -, hcreate⟩ := hagree ⟨.dedupe, ⟨⟨0⟩, ⟨0⟩, ⟨0⟩⟩, ⟨none, .collection⟩⟩
    [.made "p", .made "q", .made "b", .made "s"] (by decide) rfl (by decide) (by decide)
  obtain ⟨-, -, ⟨changed, hreply, hchanged, hsame⟩, -⟩ := hagree
    ⟨.dedupe, ⟨⟨0⟩, ⟨0⟩, ⟨0⟩⟩, ⟨none, .collection⟩⟩ [.made "b", .made "a"] (by decide) rfl (by decide)
    (by decide)
  obtain rfl : changed = false := hchanged.mpr (by decide)
  have hnew := hcreate "e" [("z", some (.made "p")), ("z", some (.made "s"))] none (by decide)
    (List.forall_mem_cons.mpr ⟨not_offends (by decide) (by decide),
      List.forall_mem_singleton.mpr (not_offends (by decide) (by decide))⟩)
  exact ⟨_, _, ⟨.dedupe, ⟨⟨0⟩, ⟨0⟩, ⟨0⟩⟩, ⟨none, .collection⟩⟩, h, by decide, by decide, hadds,
    by decide, hextended.find?, hreply, hsame rfl, hnew⟩

end KeyedColumns
