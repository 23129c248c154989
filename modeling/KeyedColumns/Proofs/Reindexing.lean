import KeyedColumns.Proofs.Coherence

/-!
# Appending and reindexing

Contents are brought up to date for each entry that is appended, and derived anew from all entries when
some of them have changed. Both come to the same, also where keys and items come again.
-/

namespace KeyedColumns.Contents

variable {c d : Contents}

/-- The index finds the first entry under each key, and just the items of the entries are present. -/
structure Derived (c : Contents) : Prop where
  byPosition : c.items = c.members
  byKey : ∀ k, c.find? k = (c.entries.find? (·.key = k)).map (·.item)
  firstPosition : ∀ k, c.index.firstPosition.find? k = c.entries.findIdx? (·.key = k)
  active : ∀ i, i ∈ c.active ↔ i ∈ c.members

theorem derived_reindex (c : Contents) : c.reindex.Derived where
  byPosition := (coherent_reindex c).items_eq
  byKey := (coherent_reindex c).find?_eq
  firstPosition := (coherent_reindex c).firstPosition_eq
  active := fun _ => mem_active_reindex

theorem reindex_snoc {e : Entry} (h : d.entries = c.entries ++ [e]) :
    d.reindex = c.reindex.append e := by
  have hs : d.sequence = ⟨c.entries ++ [e]⟩ := congrArg EntrySequence.mk h
  have hindex : KeyIndex.ofEntries d.entries = (KeyIndex.ofEntries c.entries).append e := by
    rw [h, KeyIndex.ofEntries_snoc]
  have hactive : ActiveSet.ofList (d.entries.map (·.item)) =
      (ActiveSet.ofList (c.entries.map (·.item))).insert e.item := by
    rw [h, List.map_append, List.map_singleton, ActiveSet.ofList_append_singleton]
  unfold reindex
  rw [hs, hindex, hactive]
  rfl

theorem reindex_eq_foldl (c : Contents) (es : List Entry) :
    (c.withEntries es).reindex = es.foldl append empty := by
  -- Appending adds at the end, so the last entry is taken off.
  induction es using List.reverseRecOn with
  | nil => rfl
  | append_singleton es e ih =>
    rw [reindex_snoc (c := c.withEntries es) rfl, ih, List.foldl_append]
    rfl

/--
Reindexing entries with one more at the end is reindexing them and appending that one. So it comes to
appending them all to nothing, does not depend on what was derived from other entries before, and once is
enough. What it derives is what the entries say, of those under one key the first.
-/
theorem reindexes_as_appends (c d : Contents) (es : List Entry) (e : Entry) :
    (c.withEntries (es ++ [e])).reindex = (d.withEntries es).reindex.append e ∧
    (c.withEntries es).reindex = es.foldl append empty ∧
    (c.withEntries es).reindex = (d.withEntries es).reindex ∧
    (c.withEntries es).reindex.reindex = (c.withEntries es).reindex ∧
    (c.withEntries es).reindex.Derived :=
  ⟨reindex_snoc rfl, reindex_eq_foldl c es, reindex_congr rfl, reindex_congr rfl,
    derived_reindex (c.withEntries es)⟩

/-- A key twice and an item twice: the key is indexed where it came first, and the item is present. -/
example :
    let c := (empty.withEntries [⟨"a", .made "x"⟩, ⟨"a", .made "y"⟩, ⟨"b", .made "x"⟩]).reindex
    c.find? "a" = some (.made "x") ∧ c.index.firstPosition.find? "b" = some 2 ∧
      c.items = [.made "x", .made "y", .made "x"] ∧ .made "y" ∈ c.active := by
  decide

end KeyedColumns.Contents
