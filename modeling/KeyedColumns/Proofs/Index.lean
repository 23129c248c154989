import KeyedColumns.Contents
import Mathlib.Data.List.Induction
import Mathlib.Data.List.Nodup

/-!
# The index of a list of entries

`KeyIndex.ofEntries` is the index that follows from entries alone. It is read key by key and position
by position, and where no key comes twice its pairs are known one by one.
-/

namespace KeyedColumns

namespace Dict

theorem ext_pairs {κ α : Type} {d e : Dict κ α} (h : d.pairs = e.pairs) : d = e := by
  cases d; cases e; exact congrArg Dict.mk h

variable {κ α β : Type} [DecidableEq κ]

theorem contains_mapValues (d : Dict κ α) (f : α → β) (k : κ) :
    (d.mapValues f).contains k = d.contains k := by
  unfold contains
  rw [find?_mapValues, Option.isSome_map]

theorem mapValues_addNew (d : Dict κ α) (f : α → β) (k : κ) (v : α) :
    (d.addNew k v).mapValues f = (d.mapValues f).addNew k (f v) := by
  unfold addNew
  rw [contains_mapValues]
  split
  · rfl
  · simp [mapValues]

theorem contains_iff_mem_keys {d : Dict κ α} {k : κ} : d.contains k ↔ k ∈ d.keys := by
  unfold contains keys find?
  rw [Option.isSome_map, List.find?_isSome]
  simp

theorem mem_pairs_of_find? {d : Dict κ α} {k : κ} {v : α} (h : d.find? k = some v) :
    (k, v) ∈ d.pairs := by
  unfold find? at h
  rw [Option.map_eq_some_iff] at h
  obtain ⟨⟨i, u⟩, hf, rfl⟩ := h
  have hi := List.find?_some hf
  rw [decide_eq_true_eq] at hi
  rw [← hi]
  exact List.mem_of_find?_eq_some hf

theorem contains_ofPairs {pairs : List (κ × α)} {k : κ} :
    (ofPairs pairs).contains k ↔ k ∈ pairs.map (·.1) := by
  unfold contains
  rw [find?_ofPairs, Option.isSome_map, List.find?_isSome]
  simp

theorem pairs_ofPairs_of_nodup {pairs : List (κ × α)} (h : (pairs.map (·.1)).Nodup) :
    (ofPairs pairs).pairs = pairs := by
  induction pairs using List.reverseRecOn with
  | nil => rfl
  | append_singleton pairs p ih =>
    rw [List.map_append, List.map_singleton, List.nodup_append] at h
    have hnew : ¬ (ofPairs pairs).contains p.1 := by
      rw [contains_ofPairs]
      exact fun hm => h.2.2 _ hm _ (List.mem_singleton_self _) rfl
    rw [ofPairs_append_singleton, addNew, if_neg hnew, ih h.1]

end Dict

namespace KeyIndex

theorem byPosition_ofEntries (es : List Entry) :
    (ofEntries es).byPosition = es.map (·.item) := rfl

theorem ofEntries_snoc (es : List Entry) (e : Entry) :
    ofEntries (es ++ [e]) = (ofEntries es).append e := by
  unfold ofEntries append
  simp [List.zipIdx_append, Dict.ofPairs_append_singleton]

/-- The first entry under a key is the one that is indexed. -/
theorem find?_byKey_ofEntries (es : List Entry) (k : String) :
    (ofEntries es).byKey.find? k = (es.find? (·.key = k)).map (·.item) := by
  unfold ofEntries
  rw [Dict.find?_ofPairs, List.find?_map, Option.map_map]
  rfl

theorem find?_firstPosition_ofEntries (es : List Entry) (k : String) :
    (ofEntries es).firstPosition.find? k = es.findIdx? (·.key = k) := by
  unfold ofEntries
  have hkeys : (es.map (·.key)).findIdx? (· = k) =
      ((es.map (·.key)).zipIdx.find? (·.1 = k)).map (·.2) :=
    List.findIdx?_eq_fst_find?_zipIdx
  rw [Dict.find?_ofPairs, ← hkeys, List.findIdx?_map]
  rfl

theorem contains_byKey_ofEntries (es : List Entry) (k : String) :
    (ofEntries es).byKey.contains k ↔ k ∈ es.map (·.key) := by
  unfold ofEntries
  rw [Dict.contains_ofPairs, List.map_map]
  rfl

theorem ofEntries_map (f : ItemId → ItemId) (es : List Entry) :
    ofEntries (es.map fun e => { e with item := f e.item })
      = { ofEntries es with
          byKey := (ofEntries es).byKey.mapValues f
          byPosition := (ofEntries es).byPosition.map f } := by
  induction es using List.reverseRecOn with
  | nil => rfl
  | append_singleton es e ih =>
    rw [List.map_append, List.map_singleton, ofEntries_snoc, ofEntries_snoc, ih]
    simp [append, Dict.mapValues_addNew]

/-! ## Keys that come once -/

theorem pairs_byKey_of_nodup {es : List Entry} (h : (es.map (·.key)).Nodup) :
    (ofEntries es).byKey.pairs = es.map fun e => (e.key, e.item) := by
  apply Dict.pairs_ofPairs_of_nodup
  rwa [List.map_map]

theorem pairs_firstPosition_of_nodup {es : List Entry} (h : (es.map (·.key)).Nodup) :
    (ofEntries es).firstPosition.pairs = (es.map (·.key)).zipIdx := by
  apply Dict.pairs_ofPairs_of_nodup
  rwa [List.zipIdx_map_fst]

theorem key_eq_iff_of_nodup {es : List Entry} (h : (es.map (·.key)).Nodup) {p j : Nat} {e d : Entry}
    (hp : es[p]? = some e) (hj : es[j]? = some d) : d.key = e.key ↔ p = j := by
  have hkp : (es.map (·.key))[p]? = some e.key := by simp [hp]
  have hkj : (es.map (·.key))[j]? = some d.key := by simp [hj]
  constructor
  · intro hk
    rw [hk] at hkj
    exact (List.getElem?_inj (List.getElem?_eq_some_iff.mp hkp).1 h).mp (hkp.trans hkj.symm)
  · intro hpj
    subst hpj
    rw [hp] at hj
    rw [Option.some.inj hj]

theorem keys_set {es : List Entry} {p : Nat} {key : String} {old : ItemId}
    (hp : es[p]? = some ⟨key, old⟩) (new : ItemId) :
    (es.set p ⟨key, new⟩).map (·.key) = es.map (·.key) := by
  obtain ⟨hlt, hget⟩ := List.getElem?_eq_some_iff.mp hp
  rw [List.map_set]
  apply List.ext_getElem?
  intro j
  rw [List.getElem?_set, List.length_map]
  split
  · next hj => subst hj; simp [hlt, hget]
  · rfl

theorem byKey_ofEntries_set {es : List Entry} (h : (es.map (·.key)).Nodup) {p : Nat} {key : String}
    {old : ItemId} (hp : es[p]? = some ⟨key, old⟩) (new : ItemId) :
    (ofEntries (es.set p ⟨key, new⟩)).byKey = (ofEntries es).byKey.put key new := by
  have hset : ((es.set p ⟨key, new⟩).map (·.key)).Nodup := by
    rw [keys_set hp]
    exact h
  have hin : (ofEntries es).byKey.contains key := by
    rw [contains_byKey_ofEntries]
    exact List.mem_map.mpr ⟨_, List.mem_of_getElem? hp, rfl⟩
  apply Dict.ext_pairs
  rw [pairs_byKey_of_nodup hset, Dict.put, if_pos hin, pairs_byKey_of_nodup h, List.map_set]
  -- Only the entry at `p` stands under the key, so both lists change there and nowhere else.
  apply List.ext_getElem?
  intro j
  rw [List.getElem?_set, List.length_map, List.getElem?_map, List.getElem?_map, List.getElem?_map]
  cases hj : es[j]? with
  | none =>
    have hlen := List.getElem?_eq_none_iff.mp hj
    have hlt := (List.getElem?_eq_some_iff.mp hp).1
    rw [if_neg (by omega)]
    rfl
  | some d =>
    have hk := key_eq_iff_of_nodup h hp hj
    have hjlt := (List.getElem?_eq_some_iff.mp hj).1
    by_cases hpj : p = j
    · simp only [hpj, hjlt, if_true, Option.map_some, hk.mpr hpj]
    · have hne : ¬ d.key = key := fun e => hpj (hk.mp e)
      simp only [hpj, if_false, Option.map_some, hne]

/-- Where no key comes twice, an entry whose item changes is followed by an update in place. -/
theorem ofEntries_set {es : List Entry} (h : (es.map (·.key)).Nodup) {p : Nat} {key : String}
    {old : ItemId} (hp : es[p]? = some ⟨key, old⟩) (new : ItemId) :
    ofEntries (es.set p ⟨key, new⟩)
      = { ofEntries es with
          byKey := (ofEntries es).byKey.put key new
          byPosition := (ofEntries es).byPosition.set p new } := by
  have hset : ((es.set p ⟨key, new⟩).map (·.key)).Nodup := by
    rw [keys_set hp]
    exact h
  have hbyKey := byKey_ofEntries_set h hp new
  have hfirst : (ofEntries (es.set p ⟨key, new⟩)).firstPosition = (ofEntries es).firstPosition := by
    apply Dict.ext_pairs
    rw [pairs_firstPosition_of_nodup hset, pairs_firstPosition_of_nodup h, keys_set hp]
  have hpos := byPosition_ofEntries (es.set p ⟨key, new⟩)
  rw [List.map_set, ← byPosition_ofEntries es] at hpos
  cases hx : ofEntries (es.set p ⟨key, new⟩)
  simp_all

end KeyIndex

end KeyedColumns
