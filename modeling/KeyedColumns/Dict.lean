/-!
# Dictionaries in order of insertion

A dictionary is a list of pairs whose keys differ. `find?` is its view, and each operation has its
equation through it.
-/

namespace KeyedColumns

/-- Values under keys, in the order in which the keys came. -/
structure Dict (κ α : Type) where
  pairs : List (κ × α)

namespace Dict

variable {κ α β : Type} [DecidableEq κ]

def empty : Dict κ α := ⟨[]⟩

def find? (d : Dict κ α) (k : κ) : Option α := (d.pairs.find? (·.1 = k)).map (·.2)

def contains (d : Dict κ α) (k : κ) : Bool := (d.find? k).isSome

def keys (d : Dict κ α) : List κ := d.pairs.map (·.1)

/-- Adds a value under a key that has none. The first value under a key stays. -/
def addNew (d : Dict κ α) (k : κ) (v : α) : Dict κ α :=
  if d.contains k then d else ⟨d.pairs ++ [(k, v)]⟩

/-- Puts a value in the place of the one under the key, or at the end. -/
def put (d : Dict κ α) (k : κ) (v : α) : Dict κ α :=
  if d.contains k then ⟨d.pairs.map fun p => if p.1 = k then (k, v) else p⟩
  else ⟨d.pairs ++ [(k, v)]⟩

def erase (d : Dict κ α) (k : κ) : Dict κ α := ⟨d.pairs.filter (·.1 ≠ k)⟩

def mapValues (d : Dict κ α) (f : α → β) : Dict κ β := ⟨d.pairs.map fun p => (p.1, f p.2)⟩

/-- The values of pairs under their keys. Of the pairs with one key the first counts. -/
def ofPairs (pairs : List (κ × α)) : Dict κ α := pairs.foldl (fun d p => d.addNew p.1 p.2) empty

theorem ofPairs_append_singleton (pairs : List (κ × α)) (p : κ × α) :
    ofPairs (pairs ++ [p]) = (ofPairs pairs).addNew p.1 p.2 := by
  simp [ofPairs]

/-! ## The view of each operation -/

@[simp] theorem find?_empty (k : κ) : (empty : Dict κ α).find? k = none := rfl

theorem contains_iff {d : Dict κ α} {k : κ} : d.contains k ↔ ∃ v, d.find? k = some v := by
  simp [contains, Option.isSome_iff_exists]

theorem find?_append_new {d : Dict κ α} {k : κ} {v : α} (h : d.find? k = none) (j : κ) :
    Dict.find? ⟨d.pairs ++ [(k, v)]⟩ j = if k = j then some v else d.find? j := by
  unfold find? at *
  rw [List.find?_append]
  by_cases hj : k = j
  · subst hj
    have h : d.pairs.find? (fun p => decide (p.1 = k)) = none := by simpa using h
    simp [h]
  · simp [hj]

@[simp] theorem find?_addNew (d : Dict κ α) (k : κ) (v : α) (j : κ) :
    (d.addNew k v).find? j = if k = j then some ((d.find? k).getD v) else d.find? j := by
  unfold addNew
  cases h : d.find? k with
  | none => simp [contains, h, find?_append_new h]
  | some u =>
    by_cases hj : k = j
    · subst hj; simp [contains, h]
    · simp [contains, h, hj]

theorem find?_map_put (d : Dict κ α) (k : κ) (v : α) (h : d.contains k) (j : κ) :
    Dict.find? ⟨d.pairs.map fun p => if p.1 = k then (k, v) else p⟩ j
      = if k = j then some v else d.find? j := by
  obtain ⟨pairs⟩ := d
  induction pairs with
  | nil => simp [contains, find?] at h
  | cons p rest ih =>
    obtain ⟨i, u⟩ := p
    by_cases hi : i = k
    · subst hi
      by_cases hj : i = j
      · simp [find?, hj]
      · by_cases hr : (⟨rest⟩ : Dict κ α).contains i
        · have := ih hr
          simp only [find?, hj, if_false] at this ⊢
          simpa [hj] using this
        · have hn : ∀ p ∈ rest, p.1 ≠ i := by
            intro p hp hpi
            apply hr
            simp only [contains, find?, Option.isSome_map]
            exact List.find?_isSome.2 ⟨p, hp, by simpa using hpi⟩
          have hm : rest.map (fun p => if p.1 = i then (i, v) else p) = rest := by
            conv => rhs; rw [← List.map_id rest]
            exact List.map_congr_left fun p hp => by simp [hn p hp]
          simp [find?, hj, hm]
    · have hr : (⟨rest⟩ : Dict κ α).contains k := by
        simpa [contains, find?, hi] using h
      have := ih hr
      simp only [find?] at this ⊢
      by_cases hij : i = j
      · subst hij
        have : ¬ k = i := fun e => hi e.symm
        simp [hi, this]
      · simpa [hi, hij] using this

@[simp] theorem find?_put (d : Dict κ α) (k : κ) (v : α) (j : κ) :
    (d.put k v).find? j = if k = j then some v else d.find? j := by
  unfold put
  by_cases h : d.contains k
  · simp [h, find?_map_put d k v h]
  · have hn : d.find? k = none := by simpa [contains] using h
    simp [h, find?_append_new hn]

@[simp] theorem find?_erase (d : Dict κ α) (k j : κ) :
    (d.erase k).find? j = if k = j then none else d.find? j := by
  obtain ⟨pairs⟩ := d
  induction pairs with
  | nil => simp [erase, find?]
  | cons p rest ih =>
    obtain ⟨i, u⟩ := p
    simp only [erase, find?] at ih ⊢
    by_cases hi : i = k
    · subst hi
      by_cases hj : i = j
      · simp [hj]
      · simpa [hj] using ih
    · by_cases hij : i = j
      · subst hij
        have : ¬ k = i := fun e => hi e.symm
        simp [hi, this]
      · simpa [hi, hij] using ih

theorem find?_foldl_addNew (pairs : List (κ × α)) (d : Dict κ α) (k : κ) :
    (pairs.foldl (fun d p => d.addNew p.1 p.2) d).find? k
      = (d.find? k).or ((pairs.find? (·.1 = k)).map (·.2)) := by
  induction pairs generalizing d with
  | nil => simp
  | cons p rest ih =>
    rw [List.foldl_cons, ih, find?_addNew]
    by_cases hp : p.1 = k
    · subst hp
      cases h : d.find? p.1 <;> simp
    · simp [hp]

@[simp] theorem find?_ofPairs (pairs : List (κ × α)) (k : κ) :
    (ofPairs pairs).find? k = (pairs.find? (·.1 = k)).map (·.2) := by
  simp [ofPairs, find?_foldl_addNew]

@[simp] theorem find?_mapValues (d : Dict κ α) (f : α → β) (k : κ) :
    (d.mapValues f).find? k = (d.find? k).map f := by
  obtain ⟨pairs⟩ := d
  simp only [mapValues, find?, List.find?_map, Option.map_map]
  rfl

end Dict

end KeyedColumns
