import KeyedColumns.Column

/-!
# The contents of a collection

A collection keeps its entries in order, an index of them by key and by position, and the set of the
items that are present. The index and the set follow from the entries: `append` brings them up to
date for one more entry, `reindex` derives them anew.
-/

namespace KeyedColumns

/-- An item and the key it stands under. -/
structure Entry where
  key : String
  item : ItemId
deriving DecidableEq

/-- The entries of a collection, in order. -/
structure EntrySequence where
  entries : List Entry
deriving DecidableEq

instance : Inhabited EntrySequence := ⟨⟨[]⟩⟩

/-- Items by key and by position. -/
structure KeyIndex where
  /-- The item of the first entry under each key. -/
  byKey : Dict String ItemId
  /-- The item of each entry. -/
  byPosition : List ItemId
  /-- The position of the first entry under each key. -/
  firstPosition : Dict String Nat

namespace KeyIndex

def empty : KeyIndex := ⟨Dict.empty, [], Dict.empty⟩

instance : Inhabited KeyIndex := ⟨empty⟩

/-- Indexes one more entry. A key that is indexed already keeps its item and its position. -/
def append (x : KeyIndex) (e : Entry) : KeyIndex :=
  { byKey := x.byKey.addNew e.key e.item
    byPosition := x.byPosition ++ [e.item]
    firstPosition := x.firstPosition.addNew e.key x.byPosition.length }

/-- Indexes entries from the first to the last. -/
def ofEntries (es : List Entry) : KeyIndex :=
  { byKey := Dict.ofPairs (es.map fun e => (e.key, e.item))
    byPosition := es.map (·.item)
    firstPosition := Dict.ofPairs (es.map (·.key)).zipIdx }

end KeyIndex

/-- The items that are present. -/
structure ActiveSet where
  holds : ItemId → Bool

namespace ActiveSet

instance : Membership ItemId ActiveSet := ⟨fun s i => s.holds i⟩

instance (i : ItemId) (s : ActiveSet) : Decidable (i ∈ s) := inferInstanceAs (Decidable (s.holds i))

@[ext] theorem ext {s t : ActiveSet} (h : ∀ i, i ∈ s ↔ i ∈ t) : s = t := by
  cases s; cases t
  congr
  funext i
  exact Bool.eq_iff_iff.2 (h i)

def empty : ActiveSet := ⟨fun _ => false⟩

instance : Inhabited ActiveSet := ⟨empty⟩

def insert (s : ActiveSet) (i : ItemId) : ActiveSet := ⟨fun j => i = j || s.holds j⟩

def erase (s : ActiveSet) (i : ItemId) : ActiveSet := ⟨fun j => i ≠ j && s.holds j⟩

def ofList (items : List ItemId) : ActiveSet := items.foldl insert empty

theorem ofList_append_singleton (items : List ItemId) (i : ItemId) :
    ofList (items ++ [i]) = (ofList items).insert i := by
  simp [ofList]

@[simp] theorem notMem_empty (i : ItemId) : i ∉ empty := by simp [empty, Membership.mem]

@[simp] theorem mem_insert {s : ActiveSet} {i j : ItemId} : j ∈ s.insert i ↔ i = j ∨ j ∈ s := by
  simp [insert, Membership.mem]

@[simp] theorem mem_erase {s : ActiveSet} {i j : ItemId} : j ∈ s.erase i ↔ i ≠ j ∧ j ∈ s := by
  simp [erase, Membership.mem]

theorem mem_foldl_insert {items : List ItemId} {s : ActiveSet} {j : ItemId} :
    j ∈ items.foldl insert s ↔ j ∈ items ∨ j ∈ s := by
  induction items generalizing s with
  | nil => simp
  | cons i rest ih => rw [List.foldl_cons, ih, mem_insert, List.mem_cons]; grind

@[simp] theorem mem_ofList {items : List ItemId} {j : ItemId} : j ∈ ofList items ↔ j ∈ items := by
  simp [ofList, mem_foldl_insert]

end ActiveSet

/-- The three parts of a collection's contents. -/
structure Contents where
  sequence : EntrySequence
  index : KeyIndex
  active : ActiveSet

namespace Contents

def empty : Contents := ⟨default, default, default⟩

instance : Inhabited Contents := ⟨empty⟩

def entries (c : Contents) : List Entry := c.sequence.entries

def size (c : Contents) : Nat := c.entries.length

def keys (c : Contents) : List String := c.entries.map (·.key)

/-- The item of each entry, as it is indexed. -/
def items (c : Contents) : List ItemId := c.index.byPosition

/-- The item indexed under a key. -/
def find? (c : Contents) (key : String) : Option ItemId := c.index.byKey.find? key

/-- One more entry, with the index and the set of items brought up to date. -/
def append (c : Contents) (e : Entry) : Contents :=
  { sequence := ⟨c.entries ++ [e]⟩
    index := c.index.append e
    active := c.active.insert e.item }

/-- Other entries. The index and the set of items stay those of the old ones. -/
def withEntries (c : Contents) (es : List Entry) : Contents := { c with sequence := ⟨es⟩ }

/-- Derives the index and the set of items anew from the entries. What they were before is gone. -/
def reindex (c : Contents) : Contents :=
  { c with
    index := KeyIndex.ofEntries c.entries
    active := ActiveSet.ofList (c.entries.map (·.item)) }

/-- Two contents agree if they have the same entries: equal keys and the very same items. -/
def agree (c d : Contents) : Bool := c.entries = d.entries

/-! ## Laws -/

@[simp] theorem entries_append (c : Contents) (e : Entry) :
    (c.append e).entries = c.entries ++ [e] := rfl

@[simp] theorem entries_withEntries (c : Contents) (es : List Entry) :
    (c.withEntries es).entries = es := rfl

@[simp] theorem entries_reindex (c : Contents) : c.reindex.entries = c.entries := rfl

theorem reindex_congr {c d : Contents} (h : c.entries = d.entries) : c.reindex = d.reindex := by
  have hs : c.sequence = d.sequence := congrArg EntrySequence.mk h
  unfold reindex
  rw [h, hs]

@[simp] theorem size_append (c : Contents) (e : Entry) : (c.append e).size = c.size + 1 := by
  simp [size]

end Contents

end KeyedColumns
