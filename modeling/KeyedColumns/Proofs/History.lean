import KeyedColumns.Proofs.Lenience
import KeyedColumns.Proofs.Outcome

/-!
# The history of a lenient collection

A lenient collection only grows. What it contains after a sequence of calls is what it contained before
them and, in order, what each call brought; and no lookup that had an answer gets another one.
-/

namespace KeyedColumns

open Registry (answer answerAll)

/-- What may happen to a lenient collection and to the items in it. -/
inductive Event where
  | add (item : Option ItemId) (key : Option String) (mode : Mode)
  | extend (items : List (Option ItemId)) (mode : Mode)
  | setKey (item : ItemId) (key : String)

namespace Event

def action (slot : String) : Event → Action
  | add item key mode => .call slot (.add item key) mode
  | extend items mode => .call slot (.extend items) mode
  | setKey item key => .setKey item key

def items : Event → List ItemId
  | add item _ _ => item.toList
  | extend items _ => items.filterMap id
  | setKey item _ => [item]

/-- The items that an event would bring in, each with the key that is given for it. -/
def offered : Event → List (Option ItemId × Option String)
  | add item key _ => [(item, key)]
  | extend items _ => items.map fun i => (i, none)
  | setKey .. => []

/-- The entries of what an event brings. With an item missing there are none, and an item without a
given key stands under the key that it has at the time. -/
def entries (column : ItemId → Column) (e : Event) : List Entry :=
  if ∃ o ∈ e.offered, o.1 = none then []
  else e.offered.filterMap fun o => o.1.map fun i => ⟨o.2.getD (column i).key, i⟩

def columnAfter (column : ItemId → Column) : Event → ItemId → Column
  | setKey item key => Function.update column item { column item with key }
  | _ => column

/-- The entries of what events bring one after the other. -/
def allEntries (column : ItemId → Column) : List Event → List Entry
  | [] => []
  | e :: rest => e.entries column ++ allEntries (e.columnAfter column) rest

end Event

/-- What could be looked up through a slot in `r` is found the same in `r'`. -/
structure LooksUpAlike (r r' : Registry) (slot : String) (c : Collection) : Prop where
  position : ∀ p < (r.contents c).size, ∀ mode,
    r'.outcome (.call slot (.lookupPosition p) mode) = r.outcome (.call slot (.lookupPosition p) mode)
  key : ∀ k ∈ (r.contents c).keys, ∀ mode,
    r'.outcome (.call slot (.lookupKey k) mode) = r.outcome (.call slot (.lookupKey k) mode)
  get : ∀ k ∈ (r.contents c).keys, ∀ fallback,
    r'.outcome (.ask slot (.get k fallback)) = r.outcome (.ask slot (.get k fallback))
  firstPosition : ∀ k ∈ (r.contents c).keys,
    (r'.contents c).index.firstPosition.find? k = (r.contents c).index.firstPosition.find? k
  member : ∀ i ∈ (r.contents c).active,
    r'.outcome (.ask slot (.containsColumn (some i))) = .value (.flag true) ∧
    r.outcome (.ask slot (.containsColumn (some i))) = .value (.flag true)

/-! ## One event -/

theorem Contents.entries_foldl_append (c : Contents) (es : List Entry) :
    (es.foldl append c).entries = c.entries ++ es := by
  induction es generalizing c with
  | nil => simp
  | cons e rest ih => simp [ih]

variable {column : ItemId → Column} {self : Reference} {c : Contents}

theorem entries_after_add (item : Option ItemId) (key : Option String) (mode : Mode) :
    (contentsAfter c (Call.attempt column self .lenient c (.add item key))).entries =
      c.entries ++ (Event.add item key mode).entries column := by
  simp only [Call.attempt, contentsAfter_map]
  cases item <;> simp [Lenient.tryAdd, contentsAfter, Event.entries, Event.offered]

theorem entries_after_extend (items : List (Option ItemId)) (mode : Mode) :
    (contentsAfter c (Call.attempt column self .lenient c (.extend items))).entries =
      c.entries ++ (Event.extend items mode).entries column := by
  simp only [Call.attempt, contentsAfter_map, Lenient.tryExtend]
  cases h : Lenient.allPresent items with
  | none =>
    rw [Lenient.allPresent_eq_none_iff] at h
    simp [contentsAfter, Event.entries, Event.offered, h]
  | some is =>
    rw [Lenient.allPresent_eq_some_iff] at h
    subst h
    simp [contentsAfter, Event.entries, Event.offered, Contents.entries_foldl_append]

/-- What an event does: nothing but to add its entries, or to give an item a key. -/
structure Happened (e : Event) (r r' : Registry) (c : Collection) : Prop where
  slots : r'.slots = r.slots
  knows : ∀ i, r'.catalogue.knows i = r.catalogue.knows i
  column : r'.catalogue.column = e.columnAfter r.catalogue.column
  entries : (r'.contents c).entries = (r.contents c).entries ++ e.entries r.catalogue.column

variable {r : Registry} {slot : String} {c : Collection}

theorem happened_call (h : Reachable r) (hc : r.collection? slot = some c) (call : Call)
    (hfor : call.isFor c.kind) (hi : r.knows call.items) (mode : Mode) {e : Event}
    (hcolumn : e.columnAfter r.catalogue.column = r.catalogue.column)
    (hentries : (contentsAfter (r.contents c) (r.attempt slot c call)).entries =
      (r.contents c).entries ++ e.entries r.catalogue.column) :
    Happened e r (r.act (.call slot call mode)).1 c := by
  obtain ⟨l, ht⟩ := h.tidy
  have hw := ht.act_call hc call mode
  refine ⟨hw.slots, fun i => by rw [hw.catalogue], by rw [hw.catalogue, hcolumn], ?_⟩
  rw [Registry.contents_act_call h hc hfor hi, hentries]

theorem happened_setKey {i : ItemId} (hi : r.catalogue.knows i) (key : String) :
    Happened (.setKey i key) r (r.act (.setKey i key)).1 c := by
  have hact : r.act (.setKey i key) =
      ({ r with catalogue := r.catalogue.setKey i key }, .done) := by
    simp only [Registry.act, hi, if_true]
  rw [hact]
  refine ⟨rfl, fun j => ?_, ?_, by simp [Event.entries, Event.offered, Registry.contents]⟩
  · rw [Bool.eq_iff_iff, Catalogue.knows_setKey]
    exact ⟨fun h => h.elim (fun e => e ▸ hi) id, .inr⟩
  · funext j
    rw [Catalogue.column_setKey, Event.columnAfter, Function.update_apply]
    simp only [eq_comm]

theorem happened (h : Reachable r) (hc : r.collection? slot = some c) (hk : c.kind = .lenient)
    {e : Event} (hi : r.knows e.items) : Happened e r (r.act (e.action slot)).1 c := by
  cases e with
  | add item key mode =>
    refine happened_call h hc (.add item key) rfl hi mode rfl ?_
    rw [Registry.attempt, hk]
    exact entries_after_add item key mode
  | extend items mode =>
    refine happened_call h hc (.extend items) rfl hi mode rfl ?_
    rw [Registry.attempt, hk]
    exact entries_after_extend items mode
  | setKey i key => exact happened_setKey (Registry.knows_of_knows hi i List.mem_cons_self) key

/-! ## Any number of events -/

def Registry.after (r : Registry) (slot : String) (events : List Event) : Registry :=
  (answerAll (events.map fun e => .act (e.action slot)) r).1

theorem Registry.after_cons (r : Registry) (slot : String) (e : Event) (rest : List Event) :
    r.after slot (e :: rest) = (r.act (e.action slot)).1.after slot rest := by
  simp only [after, List.map_cons, answerAll, answer]

theorem Reachable.after (h : Reachable r) (slot : String) (events : List Event) :
    Reachable (r.after slot events) :=
  Registry.reachable_answerAll h _

theorem after_events (h : Reachable r) (hc : r.collection? slot = some c) (hk : c.kind = .lenient)
    {events : List Event} (hi : ∀ e ∈ events, r.knows e.items) :
    (r.after slot events).slots = r.slots ∧
      (∀ i, (r.after slot events).catalogue.knows i = r.catalogue.knows i) ∧
      ((r.after slot events).contents c).entries =
        (r.contents c).entries ++ Event.allEntries r.catalogue.column events := by
  induction events generalizing r with
  | nil => exact ⟨rfl, fun _ => rfl, (List.append_nil _).symm⟩
  | cons e rest ih =>
    have hfirst := happened h hc hk (hi e List.mem_cons_self)
    have hheld : (r.act (e.action slot)).1.collection? slot = some c := by
      rw [Registry.collection?, hfirst.slots]
      exact hc
    have hknown : ∀ f ∈ rest, (r.act (e.action slot)).1.knows f.items := by
      intro f hf
      rw [Registry.knows_congr hfirst.knows]
      exact hi f (List.mem_cons_of_mem e hf)
    obtain ⟨hslots, hknows, hentries⟩ := ih (h.act _) hheld hknown
    rw [Registry.after_cons]
    refine ⟨hslots.trans hfirst.slots, fun i => (hknows i).trans (hfirst.knows i), ?_⟩
    rw [hentries, hfirst.entries, hfirst.column, List.append_assoc, Event.allEntries]

/-! ## Lookups -/

namespace Contents

variable {c d : Contents}

theorem Coherent.item_of_prefix (hc : c.Coherent) (hd : d.Coherent) (h : c.entries <+: d.entries)
    {p : Nat} (hp : p < c.size) : d.items[p]? = c.items[p]? := by
  obtain ⟨es, hes⟩ := h
  rw [hc.items_eq, hd.items_eq, members, members, ← hes, List.map_append,
    List.getElem?_append_left (by simpa [size] using hp)]

theorem exists_find? {k : String} (hk : k ∈ c.keys) :
    ∃ e, c.entries.find? (·.key = k) = some e := by
  rw [← Option.isSome_iff_exists, List.find?_isSome]
  simpa [keys] using hk

theorem Coherent.find?_of_prefix (hc : c.Coherent) (hd : d.Coherent) (h : c.entries <+: d.entries)
    {k : String} (hk : k ∈ c.keys) : d.find? k = c.find? k := by
  obtain ⟨es, hes⟩ := h
  obtain ⟨e, he⟩ := exists_find? hk
  rw [hc.find?_eq, hd.find?_eq, ← hes, List.find?_append, he, Option.some_or]

theorem Coherent.firstPosition_of_prefix (hc : c.Coherent) (hd : d.Coherent)
    (h : c.entries <+: d.entries) {k : String} (hk : k ∈ c.keys) :
    d.index.firstPosition.find? k = c.index.firstPosition.find? k := by
  obtain ⟨es, hes⟩ := h
  have hsome : (c.entries.findIdx? (·.key = k)).isSome := by
    rw [List.findIdx?_isSome]
    simpa [keys] using hk
  obtain ⟨p, hp⟩ := Option.isSome_iff_exists.mp hsome
  rw [hc.firstPosition_eq, hd.firstPosition_eq, ← hes, List.findIdx?_append, hp, Option.some_or]

end Contents

theorem Reachable.attended (h : Reachable r) (hc : r.collection? slot = some c)
    (hk : c.kind = .lenient) : (r.contents c).Attended .lenient r.catalogue := by
  obtain ⟨config, hrun⟩ := h
  obtain ⟨l, ht⟩ := traced_of_run hrun
  have ha := (keeps_attended anything).holds ht hc
  rwa [ht.tidy.lineage_of_kind hc hk (by decide)] at ha

theorem looksUpAlike {r' : Registry} {t : String} {d : Collection}
    (hd : r.collection? t = some d) (hd' : r'.collection? t = some d)
    (hknows : ∀ i, r'.catalogue.knows i = r.catalogue.knows i)
    (ha : (r.contents d).Attended .lenient r.catalogue)
    (ha' : (r'.contents d).Attended .lenient r'.catalogue)
    (h : (r.contents d).entries <+: (r'.contents d).entries) : LooksUpAlike r r' t d where
  position := by
    intro p hp mode
    have hitem := ha.toCoherent.item_of_prefix ha'.toCoherent h hp
    rw [Registry.outcome_call hd, Registry.outcome_call hd', Registry.knows_congr hknows]
    split
    · exact congrArg Outcome.reply (Registry.reply_lookupPosition hitem ..)
    · rfl
  key := by
    intro k hk mode
    have hfind := ha.toCoherent.find?_of_prefix ha'.toCoherent h hk
    rw [Registry.outcome_call hd, Registry.outcome_call hd', Registry.knows_congr hknows]
    split
    · exact congrArg Outcome.reply (Registry.reply_lookupKey hfind ..)
    · rfl
  get := by
    intro k hk fallback
    have hfind := ha.toCoherent.find?_of_prefix ha'.toCoherent h hk
    rw [Registry.outcome_ask hd, Registry.outcome_ask hd', Registry.knows_congr hknows]
    simp only [Registry.ask, hfind]
  firstPosition := fun k hk => ha.toCoherent.firstPosition_of_prefix ha'.toCoherent h hk
  member := by
    intro i hi
    have hm : i ∈ (r.contents d).members := ha.active i hi
    have hi' : i ∈ (r'.contents d).active := ha'.present rfl i ((h.map _).subset hm)
    have hknown : r.knows [i] := by simp [Registry.knows, ha.known i hm]
    rw [Registry.outcome_ask hd, Registry.outcome_ask hd', Registry.knows_congr hknows]
    simp only [Query.namedItems, Option.toList, hknown, if_true]
    exact ⟨congrArg (Outcome.value <| Value.flag ·) hi', congrArg (Outcome.value <| Value.flag ·) hi⟩

/--
After any calls on a lenient collection, and whatever keys items get meanwhile, it contains what it did
before and then, in order, what the calls brought that missed no item. Lookups that had an answer keep
it, in the collection and in every view of it.
-/
theorem grows_by_history (h : Reachable r) (hc : r.collection? slot = some c)
    (hk : c.kind = .lenient) {events : List Event} (hi : ∀ e ∈ events, r.knows e.items)
    {t : String} {d : Collection} (hd : r.collection? t = some d) (hs : Registry.shares d c) :
    (r.after slot events).collection? t = some d ∧
    ((r.after slot events).contents d).entries =
      (r.contents d).entries ++ Event.allEntries r.catalogue.column events ∧
    LooksUpAlike r (r.after slot events) t d := by
  obtain ⟨hslots, hknows, hentries⟩ := after_events h hc hk hi
  have hheld : ∀ {s b}, r.collection? s = some b → (r.after slot events).collection? s = some b := by
    intro s b hb
    rw [Registry.collection?, hslots]
    exact hb
  have heq : ∀ r : Registry, r.contents d = r.contents c := by
    intro r
    rw [Registry.contents, of_decide_eq_true hs]
    rfl
  rw [← heq, ← heq] at hentries
  refine ⟨hheld hd, hentries, looksUpAlike hd (hheld hd) hknows ?_ ?_ ⟨_, hentries.symm⟩⟩
  · rw [heq]
    exact h.attended hc hk
  · rw [heq]
    exact (h.after slot events).attended (hheld hc) hk

/-- A batch with an item missing, an item that gets another key between two calls, and a key given twice,
seen through a view. -/
theorem grows_by_history_of_view : ∃ r d events, Reachable r ∧ r.collection? "v" = some d ∧
    d.kind = .view ∧ (r.contents d).entries = [⟨"p", .made "a"⟩] ∧
    ((r.after "l" events).contents d).entries = [⟨"p", .made "a"⟩, ⟨"b", .made "b"⟩,
      ⟨"z", .made "b"⟩, ⟨"p", .made "b"⟩, ⟨"z", .made "b"⟩, ⟨"a", .made "a"⟩] ∧
    LooksUpAlike r (r.after "l" events) "v" d := by
  have h : Reachable _ := ⟨.ofDefault .info false, Run.refl
    |>.act (.makeItem "a" (.named "a")) trivial
    |>.act (.makeItem "b" (.named "b")) trivial
    |>.act (.create "l" .lenient [("p", some (.made "a"))] none .raising) trivial
    |>.act (.freeze "v" "l") trivial⟩
  have hgrows := fun c d (hc : Registry.collection? _ "l" = some c)
    (hd : Registry.collection? _ "v" = some d) hk hs
    (hi : ∀ e ∈ [Event.extend [some (.made "b"), none] .raising,
      .add (some (.made "b")) none .raising, .setKey (.made "b") "z",
      .add (some (.made "b")) none .raising, .add (some (.made "b")) (some "p") .raising,
      .extend [some (.made "b"), some (.made "a")] .raising], Registry.knows _ e.items) =>
    grows_by_history h hc hk hi hd hs
  obtain ⟨-, hentries, hlooks⟩ := hgrows ⟨.lenient, ⟨⟨0⟩, ⟨0⟩, ⟨0⟩⟩, ⟨none, .collection⟩⟩
    ⟨.view, ⟨⟨0⟩, ⟨0⟩, ⟨0⟩⟩, ⟨none, .collection⟩⟩ (by decide) (by decide) rfl (by decide) (by decide)
  exact ⟨_, _, _, h, by decide, rfl, by decide, hentries.trans (by decide), hlooks⟩

end KeyedColumns
