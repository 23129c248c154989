import KeyedColumns.Proofs.Invariants

/-!
# How a deduplicating collection is represented

The entries of a deduplicating collection determine its index, and its index finds every entry. That
survives items getting other keys. As long as no member gets another key, the entries also say what the
items say, and the items that are present are those of the entries.
-/

namespace KeyedColumns

namespace Contents

/-- Keys come once, and both indexes and the list by position are those of the entries. -/
structure Indexed (cat : Catalogue) (c : Contents) : Prop where
  keys_nodup : c.keys.Nodup
  key_ne : "" ∉ c.keys
  known : ∀ e ∈ c.entries, cat.knows e.item
  byPosition : c.index.byPosition = c.entries.map (·.item)
  byKey : c.index.byKey.pairs = c.entries.map fun e => (e.key, e.item)
  firstPosition : c.index.firstPosition.pairs = c.keys.zipIdx
  active_member : ∀ i ∈ c.active, i ∈ c.entries.map (·.item)

/-- Entries stand under their items' own keys, items come once, and all of them are present. -/
structure Exact (cat : Catalogue) (c : Contents) : Prop extends Indexed cat c where
  own_key : ∀ e ∈ c.entries, e.key = (cat.column e.item).key
  items_nodup : (c.entries.map (·.item)).Nodup
  member_active : ∀ i ∈ c.entries.map (·.item), i ∈ c.active

/-- A key that is indexed has a position in range, and an item that is present has an entry. -/
structure Reliable (c : Contents) : Prop where
  position : ∀ key old, c.find? key = some old → ∃ p, c.index.firstPosition.find? key = some p ∧
    p < c.entries.length ∧ p < c.index.byPosition.length
  removal : ∀ i ∈ c.active, c.entries.findIdx (·.item = i) < c.entries.length

variable {cat : Catalogue} {c : Contents}

theorem Sound.indexed (h : c.Sound .dedupe cat) : c.Indexed cat := by
  have hd := h.deduplicated rfl
  refine ⟨hd.keys_nodup, ?_, fun e he => h.known _ (mem_members.mpr ⟨e, he, rfl⟩),
    hd.toCoherent.items_eq, ?_, ?_, hd.active⟩
  · intro hk
    obtain ⟨e, he, hke⟩ := List.mem_map.mp hk
    exact hd.key_ne e he hke
  · rw [hd.index]
    exact KeyIndex.pairs_byKey_of_nodup hd.keys_nodup
  · rw [hd.index]
    exact KeyIndex.pairs_firstPosition_of_nodup hd.keys_nodup

theorem Settled.exact (h : c.Settled .dedupe cat) : c.Exact cat where
  toIndexed := h.toSound.indexed
  own_key := (h.faithful rfl).own_key
  items_nodup := (h.faithful rfl).members_nodup
  member_active := (h.faithful rfl).present

theorem Coherent.reliable (hc : c.Coherent) : c.Reliable where
  position := by
    intro key old hf
    obtain ⟨p, hp, he⟩ := hc.position_of_find? hf
    have hlt : p < c.entries.length := (List.getElem?_eq_some_iff.mp he).1
    have hlen : c.index.byPosition.length = c.entries.length := by
      have hitems : c.index.byPosition = c.entries.map (·.item) := hc.items_eq
      rw [hitems, List.length_map]
    exact ⟨p, hp, hlt, hlen ▸ hlt⟩
  removal := by
    intro i hi
    obtain ⟨e, he, hei⟩ := mem_members.mp (hc.active i hi)
    exact List.findIdx_lt_length_of_exists ⟨e, he, by simpa using hei⟩

theorem Deduplicated.changes {column : ItemId → Column} {d : Contents} (hc : c.Deduplicated)
    (h : Dedupe.Changes column (fun _ => True) c d) : d.Deduplicated := by
  induction h with
  | refl => exact hc
  | tail _ h ih => exact ih.change h

theorem Deduplicated.each_put (hc : c.Deduplicated) {column : ItemId → Column} (self : Reference)
    {is : List ItemId} (hk : ∀ i ∈ is, (column i).key ≠ "") :
    (Dedupe.each (Dedupe.put column self) c is).contents.Deduplicated :=
  hc.changes (Dedupe.each_changes (fun c i hi => Dedupe.put_changes c trivial (hk i hi)) c)

/-- In the middle of a batch that was checked, lookups are as reliable as before it. -/
theorem Deduplicated.reliable_within (hc : c.Deduplicated) {column : ItemId → Column}
    (self : Reference) {given : List (Option ItemId × Option String)} {done rest : List ItemId}
    (h : Dedupe.checkAll column given = .ok (done ++ rest)) :
    (Dedupe.each (Dedupe.put column self) c done).contents.Reliable := by
  have hkey : ∀ i ∈ done, (column i).key ≠ "" := fun i hi =>
    (Dedupe.checkAll_mem h (List.mem_append_left rest hi)).2
  exact (hc.each_put self hkey).toCoherent.reliable

/-! ## What steps rely on -/

variable {column : ItemId → Column}

/-- Where a key finds an item it has a position, too, and that is not past the end. -/
theorem Coherent.breaches_put (hc : c.Coherent) (self : Reference) (i : ItemId) :
    (Dedupe.put column self c i).breaches = [] := by
  unfold Dedupe.put
  simp only
  split
  · rfl
  · next old hf =>
    obtain ⟨p, hp, hsequence, hitems⟩ := hc.reliable.position (column i).key old hf
    have hlt : p < c.entries.length ∧ p < c.items.length := ⟨hsequence, hitems⟩
    simp only [hp, hlt, and_self, if_true]
    split <;> rfl

theorem Coherent.breaches_takeOut (hc : c.Coherent) (self : Reference) {i : ItemId}
    (hi : i ∈ c.active) : (Dedupe.takeOut column self c i).breaches = [] := by
  unfold Dedupe.takeOut
  simp only [hc.reliable.removal i hi, if_true]

end Contents

namespace Dedupe

variable {column : ItemId → Column} {self : Reference}

theorem breaches_each {operation : Contents → ItemId → Done Bool} (fit : Contents → Prop)
    {is : List ItemId}
    (h : ∀ c, fit c → ∀ i ∈ is, (operation c i).breaches = [] ∧ fit (operation c i).contents)
    (hc : fit c) : (each operation c is).breaches = [] := by
  induction is generalizing c with
  | nil => rfl
  | cons i rest ih =>
    obtain ⟨hfirst, hfit⟩ := h c hc i List.mem_cons_self
    have hrest := ih (fun c hc j hj => h c hc j (List.mem_cons_of_mem i hj)) hfit
    simp only [each, hfirst, hrest, List.append_nil]

theorem breaches_each_put (hc : c.Deduplicated) {is : List ItemId}
    (hk : ∀ i ∈ is, (column i).key ≠ "") : (each (put column self) c is).breaches = [] :=
  breaches_each Contents.Deduplicated (fun _ hc i hi =>
    ⟨hc.toCoherent.breaches_put self i, hc.changes (put_changes _ trivial (hk i hi))⟩) hc

theorem breaches_supplant (c : Contents) (i : ItemId) : (supplant column self c i).breaches = [] := by
  unfold supplant
  simp only
  split <;> rfl

theorem breaches_each_supplant (c : Contents) (is : List ItemId) :
    (each (supplant column self) c is).breaches = [] :=
  breaches_each (fun _ => True) (fun c _ i _ => ⟨breaches_supplant c i, trivial⟩) trivial

theorem breachesOf_tryConstruct (given : List (String × Option ItemId)) :
    breachesOf (tryConstruct column self given) = [] := by
  unfold tryConstruct
  cases h : checkEntries column given with
  | error f => rfl
  | ok is => exact breaches_each_put Contents.deduplicated_empty (checkAll_ok h).2

theorem breachesOf_tryAdd (hc : c.Deduplicated) (item : Option ItemId) (key : Option String) :
    breachesOf (tryAdd column self c item key) = [] := by
  unfold tryAdd
  cases check column item key with
  | error f => rfl
  | ok i => exact hc.toCoherent.breaches_put self i

theorem breachesOf_tryExtend (hc : c.Deduplicated) (items : List (Option ItemId)) :
    breachesOf (tryExtend column self c items) = [] := by
  unfold tryExtend
  cases h : checkAll column (items.map fun i => (i, none)) with
  | error f => rfl
  | ok is => exact breaches_each_put hc (checkAll_ok h).2

theorem breachesOf_tryReplace (c : Contents) (item : Option ItemId) :
    breachesOf (tryReplace column self c item) = [] := by
  unfold tryReplace
  cases check column item none with
  | error f => rfl
  | ok i => exact breaches_supplant c i

theorem breachesOf_tryRemove (hc : c.Deduplicated) (item : Option ItemId) :
    breachesOf (tryRemove column self c item) = [] := by
  unfold tryRemove
  cases item with
  | none => rfl
  | some i =>
    simp only
    split
    · next hi => exact hc.toCoherent.breaches_takeOut self hi
    · rfl

theorem breachesOf_tryPopulate (c : Contents) (given : List (String × Option ItemId)) :
    breachesOf (tryPopulate column self c given) = [] := by
  unfold tryPopulate
  cases checkEntries column given with
  | error f => rfl
  | ok is => exact breaches_each_supplant _ _

end Dedupe

namespace Call

variable {column : ItemId → Column} {self : Reference} {kind : Kind}

theorem breachesOf_attempt (hc : c.Deduplicated) (hk : kind ≠ .lenient) (call : Call) :
    breachesOf (call.attempt column self kind c) = [] := by
  have hflag : ∀ {x : Except Refusal (Done Bool)}, breachesOf x = [] →
      breachesOf (x.map (·.map Result.flag)) = [] := fun h => (breachesOf_map _ _).trans h
  cases call with
  | lookupKey key =>
    simp only [attempt, breachesOf_map, Contents.lookupKey]
    split <;> rfl
  | lookupPosition position =>
    simp only [attempt, breachesOf_map, Contents.lookupPosition]
    split <;> rfl
  | containsItem item => cases kind <;> rfl
  | add item key =>
    cases kind with
    | lenient => exact absurd rfl hk
    | dedupe => exact hflag (Dedupe.breachesOf_tryAdd hc item key)
    | view => rfl
  | extend items =>
    cases kind with
    | lenient => exact absurd rfl hk
    | dedupe => exact hflag (Dedupe.breachesOf_tryExtend hc items)
    | view => rfl
  | replace item =>
    cases kind with
    | lenient | dedupe => exact hflag (Dedupe.breachesOf_tryReplace c item)
    | view => rfl
  | remove item =>
    cases kind with
    | lenient | dedupe => exact hflag (Dedupe.breachesOf_tryRemove hc item)
    | view => rfl
  | populate given =>
    cases kind with
    | lenient | dedupe => exact hflag (Dedupe.breachesOf_tryPopulate c given)
    | view => rfl

theorem breaches_routine (hc : c.Deduplicated) (hk : kind ≠ .lenient) (call : Call) (mode : Mode) :
    ((call.routine column self kind).on (.start c mode.given)).2.breaches = [] := by
  refine (raises_routine call).breaches (fun code => ?_) mode
  unfold Work.start
  by_cases hs : call.Silent kind
  · rw [routine_on_silent hs]
  · rw [routine_on hs, Work.breaches_settled, breachesOf_attempt hc hk]
    rfl

end Call

theorem Dedupe.breaches_construct {column : ItemId → Column} {self : Reference}
    (given : List (String × Option ItemId)) (mode : Mode) :
    ((Kind.dedupe.routine column self given).on (.start Contents.empty mode.given)).2.breaches =
      [] := by
  refine (Kind.raises_routine (by decide)).breaches (fun code => ?_) mode
  unfold Work.start
  rw [Kind.routine_on (by decide), Work.breaches_founded]
  exact breachesOf_tryConstruct given

variable {allowed : Registry → Action → Prop} {r : Registry} {l : Lineage} {slot : String}
  {c : Collection}

theorem Tidy.lineage_eq (ht : Tidy r l) {kind : Kind} (hc : r.collection? slot = some c)
    (hk : c.kind = kind ∨ c.kind = .view ∧ l slot = kind) (hne : kind ≠ .view := by decide) :
    l slot = kind := by
  rcases hk with hk | ⟨-, hl⟩
  · exact ht.lineage_of_kind hc hk hne
  · exact hl

theorem sparing_setKey {i : ItemId} {key : String}
    (h : ∀ p ∈ r.slots.pairs, p.2.kind ≠ .lenient → i ∉ (r.contents p.2).members) :
    Sparing r (.setKey i key) :=
  fun slot c hc hk => h (slot, c) (Dict.mem_pairs_of_find? hc) hk

/--
In every registry that comes about without a member of a collection that is not lenient getting
another key, deduplicating collections and the views of them are represented exactly.
-/
theorem exact_of_sparing (h : Traced Sparing r l) (hc : r.collection? slot = some c)
    (hk : c.kind = .dedupe ∨ c.kind = .view ∧ l slot = .dedupe) :
    (r.contents c).Exact r.catalogue := by
  have hs := keeps_settled.holds h hc
  rw [h.tidy.lineage_eq hc hk] at hs
  exact hs.exact

/-- A view of a collection that is gone, for which an item got its key before it was a member. -/
theorem exact_of_sparing_view : ∃ r l c, Traced Sparing r l ∧ r.collection? "v" = some c ∧
    c.kind = .view ∧ l "v" = .dedupe ∧ (r.contents c).keys = ["a", "z"] ∧
    (r.contents c).Exact r.catalogue := by
  have h : Traced Sparing _ _ := Traced.empty (.ofDefault .info false)
    |>.act (.makeItem "a" (.named "a")) trivial
    |>.act (.makeItem "b" (.named "b")) trivial
    |>.act (.create "d" .dedupe [("a", some (.made "a"))] none .raising) trivial
    |>.act (.freeze "v" "d") trivial
    |>.act (.setKey (.made "b") "z") (sparing_setKey (by decide))
    |>.act (.call "d" (.add (some (.made "b")) none) .raising) trivial
    |>.act (.drop "d") trivial
  refine ⟨_, _, ⟨.view, ⟨⟨0⟩, ⟨0⟩, ⟨0⟩⟩, ⟨none, .collection⟩⟩, h, ?held, rfl, ?line, ?keys,
    exact_of_sparing h ?held (Or.inr ⟨rfl, ?line⟩)⟩
  case held => decide
  case line => decide
  case keys => decide

/--
Whatever keys items are given, deduplicating collections and the views of them stay indexed. What adding
and removing look up is there, also in the middle of a batch and of a construction: nothing that a call or
a construction relies on is missing when it runs.
-/
theorem indexed_of_anything (h : Traced anything r l) (hc : r.collection? slot = some c)
    (hk : c.kind = .dedupe ∨ c.kind = .view ∧ l slot = .dedupe) :
    (r.contents c).Indexed r.catalogue ∧ (r.contents c).Reliable ∧
      (∀ self given done rest,
        Dedupe.checkAll r.catalogue.column given = .ok (done ++ rest) →
        (Dedupe.each (Dedupe.put r.catalogue.column self) (r.contents c) done).contents.Reliable ∧
        (Dedupe.each (Dedupe.put r.catalogue.column self) Contents.empty done).contents.Reliable) ∧
      (∀ call mode, (r.run slot c call mode).2.breaches = []) ∧
      ∀ self given (mode : Mode), ((Kind.dedupe.routine r.catalogue.column self given).on
        (.start Contents.empty mode.given)).2.breaches = [] := by
  have hs := (keeps_sound anything).holds h hc
  rw [h.tidy.lineage_eq hc hk] at hs
  have hd := hs.deduplicated rfl
  have hkind : c.kind ≠ .lenient := by
    rcases hk with hk | ⟨hk, -⟩ <;> rw [hk] <;> decide
  refine ⟨hs.indexed, hs.toCoherent.reliable, fun self given done rest hchecked => ?_,
    fun call mode => Call.breaches_routine hd hkind call mode,
    fun self given mode => Dedupe.breaches_construct given mode⟩
  exact ⟨hd.reliable_within self hchecked,
    Contents.deduplicated_empty.reliable_within self hchecked⟩

/-- The item under "a" got another key, was added again, and lost its second place to another. -/
theorem indexed_of_anything_renamed : ∃ r l c, Traced anything r l ∧
    r.collection? "d" = some c ∧
    (r.contents c).entries = [⟨"a", .made "a"⟩, ⟨"z", .made "b"⟩] ∧
    .made "a" ∉ (r.contents c).active ∧
    (r.contents c).Indexed r.catalogue ∧ (r.contents c).Reliable ∧
    (r.run "d" c (.remove (some (.made "b"))) .raising).2.breaches = [] := by
  have h : Traced anything _ _ := Traced.empty (.ofDefault .info false)
    |>.act (.makeItem "a" (.named "a")) trivial
    |>.act (.makeItem "b" ⟨"b", "z"⟩) trivial
    |>.act (.create "d" .dedupe [("a", some (.made "a"))] none .raising) trivial
    |>.act (.setKey (.made "a") "z") trivial
    |>.act (.call "d" (.add (some (.made "a")) none) .raising) trivial
    |>.act (.call "d" (.add (some (.made "b")) none) .raising) trivial
  have hindexed := fun c (hc : Registry.collection? _ "d" = some c) hk => indexed_of_anything h hc hk
  obtain ⟨hindex, hreliable, -, hrun, -⟩ := hindexed
    ⟨.dedupe, ⟨⟨0⟩, ⟨0⟩, ⟨0⟩⟩, ⟨none, .collection⟩⟩ (by decide) (Or.inl rfl)
  exact ⟨_, _, _, h, by decide, by decide, by decide, hindex, hreliable, hrun _ _⟩

end KeyedColumns
