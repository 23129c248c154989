import KeyedColumns.Proofs.Attempt
import KeyedColumns.Proofs.Coherence
import KeyedColumns.Registry
import Mathlib.Data.List.InsertIdx
import Mathlib.Logic.Equiv.Basic

/-!
# Calls under other names of items

No call depends on what the items are, only on their columns and on which are the same. A call on
renamed contents that names renamed items does what the call does, renamed.
-/

namespace KeyedColumns

theorem Dict.mapValues_put {κ α β : Type} [DecidableEq κ] (d : Dict κ α) (f : α → β) (k : κ)
    (v : α) : (d.put k v).mapValues f = (d.mapValues f).put k (f v) := by
  unfold put
  rw [contains_mapValues]
  split
  · simp only [mapValues, List.map_map]
    congr 1
    apply List.map_congr_left
    intro p _
    by_cases h : p.1 = k <;> simp [h]
  · simp [mapValues]

variable {φ : Equiv.Perm ItemId}

/-! ## Contents -/

/-- The entry of another item. -/
def Entry.rename (φ : Equiv.Perm ItemId) (e : Entry) : Entry := { e with item := φ e.item }

def KeyIndex.rename (φ : Equiv.Perm ItemId) (x : KeyIndex) : KeyIndex :=
  { x with byKey := x.byKey.mapValues φ, byPosition := x.byPosition.map φ }

/-- Contents with other items. -/
def Contents.rename (φ : Equiv.Perm ItemId) (c : Contents) : Contents :=
  { sequence := ⟨c.entries.map (Entry.rename φ)⟩
    index := c.index.rename φ
    active := ⟨fun j => c.active.holds (φ.symm j)⟩ }

namespace Entry

@[simp] theorem key_rename (φ : Equiv.Perm ItemId) (e : Entry) : (e.rename φ).key = e.key := rfl

@[simp] theorem item_rename (φ : Equiv.Perm ItemId) (e : Entry) :
    (e.rename φ).item = φ e.item := rfl

theorem rename_injective (φ : Equiv.Perm ItemId) : Function.Injective (rename φ) := by
  rintro ⟨k, i⟩ ⟨l, j⟩ h
  have hk : k = l := congrArg Entry.key h
  have hi : φ i = φ j := congrArg Entry.item h
  rw [hk, φ.injective hi]

end Entry

namespace Contents

@[ext] theorem ext {c d : Contents} (hs : c.entries = d.entries) (hi : c.index = d.index)
    (ha : ∀ i, i ∈ c.active ↔ i ∈ d.active) : c = d := by
  obtain ⟨⟨es⟩, x, a⟩ := c
  obtain ⟨⟨fs⟩, y, b⟩ := d
  have hs : es = fs := hs
  have hi : x = y := hi
  have ha : a = b := ActiveSet.ext ha
  rw [hs, hi, ha]

@[simp] theorem entries_rename (φ : Equiv.Perm ItemId) (c : Contents) :
    (c.rename φ).entries = c.entries.map (Entry.rename φ) := rfl

@[simp] theorem index_rename (φ : Equiv.Perm ItemId) (c : Contents) :
    (c.rename φ).index = c.index.rename φ := rfl

@[simp] theorem items_rename (φ : Equiv.Perm ItemId) (c : Contents) :
    (c.rename φ).items = c.items.map φ := rfl

@[simp] theorem find?_rename (φ : Equiv.Perm ItemId) (c : Contents) (key : String) :
    (c.rename φ).find? key = (c.find? key).map φ := Dict.find?_mapValues _ _ _

@[simp] theorem mem_active_rename (φ : Equiv.Perm ItemId) (c : Contents) (i : ItemId) :
    i ∈ (c.rename φ).active ↔ φ.symm i ∈ c.active := Iff.rfl

@[simp] theorem keys_rename (φ : Equiv.Perm ItemId) (c : Contents) :
    (c.rename φ).keys = c.keys := by
  simp [keys, Function.comp_def]

@[simp] theorem size_rename (φ : Equiv.Perm ItemId) (c : Contents) :
    (c.rename φ).size = c.size := by
  simp [size]

@[simp] theorem print_rename (φ : Equiv.Perm ItemId) (kind : Kind) (c : Contents) :
    kind.print (c.rename φ) = kind.print c := by
  simp [Kind.print]

theorem rename_append (φ : Equiv.Perm ItemId) (c : Contents) (e : Entry) :
    (c.append e).rename φ = (c.rename φ).append (e.rename φ) := by
  apply Contents.ext
  · simp
  · simp [append, KeyIndex.rename, KeyIndex.append, Dict.mapValues_addNew]
  · intro i
    simp [append, Equiv.eq_symm_apply]

theorem rename_foldl_append (φ : Equiv.Perm ItemId) (es : List Entry) (c : Contents) :
    (es.foldl append c).rename φ = (es.map (Entry.rename φ)).foldl append (c.rename φ) := by
  induction es generalizing c with
  | nil => rfl
  | cons e rest ih => rw [List.foldl_cons, ih, rename_append, List.map_cons, List.foldl_cons]

theorem rename_reindex (φ : Equiv.Perm ItemId) (c : Contents) :
    c.reindex.rename φ = (c.rename φ).reindex := by
  apply Contents.ext
  · simp
  · exact (KeyIndex.ofEntries_map φ c.entries).symm
  · intro i
    rw [mem_active_rename, mem_active_reindex, mem_active_reindex]
    simp [members, Equiv.eq_symm_apply]

theorem agree_rename (φ : Equiv.Perm ItemId) (c d : Contents) :
    (c.rename φ).agree (d.rename φ) = c.agree d := by
  simp [agree, (Entry.rename_injective φ).list_map.eq_iff]

end Contents

/-! ## Outcomes -/

/-- Both succeed with related values, or both fail for the same cause. -/
inductive Alike {α β : Type} (related : α → β → Prop) :
    Except Refusal α → Except Refusal β → Prop where
  | ok {a : α} {b : β} (h : related a b) : Alike related (.ok a) (.ok b)
  | error {r s : Refusal} (h : s.error = r.error) : Alike related (.error r) (.error s)

theorem Alike.cases {α β : Type} {related : α → β → Prop} {x : Except Refusal α}
    {y : Except Refusal β} (h : Alike related x y) :
    (∃ a b, x = .ok a ∧ y = .ok b ∧ related a b) ∨
      ∃ r s, x = .error r ∧ y = .error s ∧ s.error = r.error := by
  cases h with
  | ok h => exact Or.inl ⟨_, _, rfl, rfl, h⟩
  | error h => exact Or.inr ⟨_, _, rfl, rfl, h⟩

/-- The second does what the first does, with other items; what they report may differ. -/
structure Done.Renamed (φ : Equiv.Perm ItemId) {α : Type} (value : α → α) (d d' : Done α) :
    Prop where
  value : d'.value = value d.value
  contents : d'.contents = d.contents.rename φ

/-- Attempts that come to the same, with other items. -/
abbrev Attempts (φ : Equiv.Perm ItemId) {α : Type} (value : α → α) :
    Except Refusal (Done α) → Except Refusal (Done α) → Prop :=
  Alike (Done.Renamed φ value)

theorem Attempts.map {α β : Type} {value : α → α} {value' : β → β}
    {x y : Except Refusal (Done α)} (h : Attempts φ value x y) {f : α → β}
    (hf : ∀ a, f (value a) = value' (f a)) :
    Attempts φ value' (x.map (·.map f)) (y.map (·.map f)) := by
  cases h with
  | error h => exact .error h
  | ok h => exact .ok ⟨by simp [Done.map, h.value, hf], h.contents⟩

/-! ## Deduplicating collections -/

namespace Dedupe

variable {column column' : ItemId → Column} {self self' : Reference}

theorem check_alike (hcol : ∀ i, column' (φ i) = column i) (item : Option ItemId)
    (given : Option String) :
    Alike (fun i j => j = φ i) (check column item given) (check column' (item.map φ) given) := by
  cases item with
  | none => exact .error rfl
  | some i =>
    simp only [Option.map_some, check, hcol]
    split
    · exact .error rfl
    · split
      · exact .error rfl
      · exact .ok rfl

/-- Items with the keys that are given for them, under other names. -/
def renameGiven (φ : Equiv.Perm ItemId) (given : List (Option ItemId × Option String)) :
    List (Option ItemId × Option String) :=
  given.map fun g => (g.1.map φ, g.2)

theorem checkAll_alike (hcol : ∀ i, column' (φ i) = column i)
    (given : List (Option ItemId × Option String)) :
    Alike (fun is js => js = is.map φ) (checkAll column given)
      (checkAll column' (renameGiven φ given)) := by
  induction given with
  | nil => exact .ok rfl
  | cons g rest ih =>
    obtain ⟨item, key⟩ := g
    unfold renameGiven at ih ⊢
    simp only [List.map_cons, checkAll]
    obtain ⟨i, _, hx, hy, rfl⟩ | ⟨r, s, hx, hy, h⟩ := (check_alike hcol item key).cases
    · rw [hx, hy]
      obtain ⟨is, _, hxs, hys, rfl⟩ | ⟨r, s, hxs, hys, h⟩ := ih.cases
      · rw [hxs, hys]
        exact .ok rfl
      · rw [hxs, hys]
        exact .error h
    · rw [hx, hy]
      exact .error h

theorem rename_takePlace (c : Contents) (p : Nat) (old new : ItemId) (key : String) :
    (takePlace c p old new key).rename φ = takePlace (c.rename φ) p (φ old) (φ new) key := by
  apply Contents.ext
  · show (c.entries.modify p _).map _ = (c.entries.map _).modify p _
    apply List.ext_getElem?
    intro j
    simp only [List.getElem?_map, List.getElem?_modify]
    by_cases h : p = j <;> simp [h, Entry.rename, Function.comp_def]
  · simp [takePlace, KeyIndex.rename, Dict.mapValues_put, List.map_set]
  · intro i
    simp [takePlace, Equiv.eq_symm_apply]

theorem put_renamed (hcol : ∀ i, column' (φ i) = column i) (self self' : Reference)
    (c : Contents) (i : ItemId) :
    (put column self c i).Renamed φ id (put column' self' (c.rename φ) (φ i)) := by
  unfold put
  simp only [hcol, Contents.find?_rename]
  cases hf : c.find? (column i).key with
  | none => exact ⟨rfl, (c.rename_append φ ⟨_, i⟩).symm⟩
  | some old =>
    simp only [Option.map_some, φ.injective.eq_iff]
    split
    · exact ⟨rfl, rfl⟩
    · have hfirst : (c.rename φ).index.firstPosition = c.index.firstPosition := rfl
      rw [hfirst]
      cases c.index.firstPosition.find? (column i).key with
      | none => exact ⟨rfl, rfl⟩
      | some p => exact ⟨rfl, (rename_takePlace c p old i _).symm⟩

theorem each_renamed {operation operation' : Contents → ItemId → Done Bool}
    (h : ∀ c i, (operation c i).Renamed φ id (operation' (c.rename φ) (φ i))) (c : Contents)
    (is : List ItemId) :
    (each operation c is).Renamed φ id (each operation' (c.rename φ) (is.map φ)) := by
  induction is generalizing c with
  | nil => exact ⟨rfl, rfl⟩
  | cons i rest ih =>
    have hfirst := h c i
    have hrest := ih (operation c i).contents
    rw [← hfirst.contents] at hrest
    refine ⟨?_, hrest.contents⟩
    show (_ || _) = (_ || _)
    rw [hfirst.value, hrest.value]
    rfl

/-! ### Replacing -/

theorem displaced_rename (hcol : ∀ i, column' (φ i) = column i) (c : Contents) (i : ItemId) :
    displaced column' (c.rename φ) (φ i) =
      ((displaced column c i).1.map φ, (displaced column c i).2.map φ) := by
  unfold displaced
  simp only [hcol, Contents.find?_rename, (Option.map_injective φ.injective).eq_iff]
  split <;> rfl

theorem stays_rename (byKey byName : Option ItemId) (e : Entry) :
    (!(some (e.rename φ).item = byKey.map φ || some (e.rename φ).item = byName.map φ)) =
      !(some e.item = byKey || some e.item = byName) := by
  have hsome : ∀ o : Option ItemId, some (φ e.item) = o.map φ ↔ some e.item = o := fun o =>
    (Option.map_injective φ.injective).eq_iff (a := some e.item)
  simp only [Entry.item_rename, hsome]

theorem before_rename (hcol : ∀ i, column' (φ i) = column i) (c : Contents) (i : ItemId) :
    before column' (c.rename φ) (φ i) = (before column c i).map (Entry.rename φ) := by
  unfold before
  simp only [displaced_rename hcol, Contents.entries_rename, List.takeWhile_map]
  congr 2
  funext e
  exact stays_rename _ _ e

theorem after_rename (hcol : ∀ i, column' (φ i) = column i) (c : Contents) (i : ItemId) :
    after column' (c.rename φ) (φ i) = (after column c i).map (Entry.rename φ) := by
  unfold after
  simp only [displaced_rename hcol, Contents.entries_rename, List.dropWhile_map, List.filter_map]
  have hstays : ((fun e : Entry => !(some e.item = (displaced column c i).1.map φ ||
      some e.item = (displaced column c i).2.map φ)) ∘ Entry.rename φ) =
        fun e : Entry => !(some e.item = (displaced column c i).1 ||
          some e.item = (displaced column c i).2) := by
    funext e
    exact stays_rename _ _ e
  rw [hstays]

theorem supplant_renamed (hcol : ∀ i, column' (φ i) = column i) (self self' : Reference)
    (c : Contents) (i : ItemId) :
    (supplant column self c i).Renamed φ id (supplant column' self' (c.rename φ) (φ i)) := by
  have hentries : before column' (c.rename φ) (φ i) ++ ⟨(column' (φ i)).key, φ i⟩ ::
      after column' (c.rename φ) (φ i) =
        (before column c i ++ ⟨(column i).key, i⟩ :: after column c i).map (Entry.rename φ) := by
    rw [before_rename hcol, after_rename hcol, hcol, List.map_append, List.map_cons]
    rfl
  unfold supplant
  simp only [hentries, Contents.entries_rename, (Entry.rename_injective φ).list_map.eq_iff]
  split
  · exact ⟨rfl, rfl⟩
  · exact ⟨rfl, (Contents.rename_reindex φ (c.withEntries _)).symm⟩

/-! ### Populating -/

theorem collides_rename (hcol : ∀ i, column' (φ i) = column i) (c : Contents) (i : ItemId) :
    collides column' (c.rename φ) (φ i) = collides column c i := by
  simp [collides, hcol]

theorem appendFree_rename (hcol : ∀ i, column' (φ i) = column i) (c : Contents)
    (is : List ItemId) :
    appendFree column' (c.rename φ) (is.map φ) =
      ((appendFree column c is).1.rename φ, (appendFree column c is).2.map φ) := by
  induction is generalizing c with
  | nil => rfl
  | cons i rest ih =>
    rw [List.map_cons]
    unfold appendFree
    rw [collides_rename hcol]
    split
    · rw [ih]
      rfl
    · rw [hcol, ← ih, Contents.rename_append]
      rfl

/-! ### Operations -/

theorem add_attempts (hcol : ∀ i, column' (φ i) = column i) (c : Contents)
    (item : Option ItemId) (key : Option String) :
    Attempts φ id (tryAdd column self c item key)
      (tryAdd column' self' (c.rename φ) (item.map φ) key) := by
  unfold tryAdd
  obtain ⟨i, _, hx, hy, rfl⟩ | ⟨r, s, hx, hy, h⟩ := (check_alike hcol item key).cases
  · rw [hx, hy]
    exact .ok (put_renamed hcol self self' c i)
  · rw [hx, hy]
    exact .error h

theorem extend_attempts (hcol : ∀ i, column' (φ i) = column i) (c : Contents)
    (items : List (Option ItemId)) :
    Attempts φ id (tryExtend column self c items)
      (tryExtend column' self' (c.rename φ) (items.map (Option.map φ))) := by
  have hgiven : (items.map (Option.map φ)).map (fun i => (i, (none : Option String))) =
      renameGiven φ (items.map fun i => (i, none)) := by
    simp [renameGiven]
  unfold tryExtend
  rw [hgiven]
  obtain ⟨is, _, hx, hy, rfl⟩ | ⟨r, s, hx, hy, h⟩ :=
    (checkAll_alike hcol (items.map fun i => (i, none))).cases
  · rw [hx, hy]
    exact .ok (each_renamed (put_renamed hcol self self') c is)
  · rw [hx, hy]
    exact .error h

theorem replace_attempts (hcol : ∀ i, column' (φ i) = column i) (c : Contents)
    (item : Option ItemId) :
    Attempts φ id (tryReplace column self c item)
      (tryReplace column' self' (c.rename φ) (item.map φ)) := by
  unfold tryReplace
  obtain ⟨i, _, hx, hy, rfl⟩ | ⟨r, s, hx, hy, h⟩ := (check_alike hcol item none).cases
  · rw [hx, hy]
    have hd := supplant_renamed hcol self self' c i
    exact .ok ⟨rfl, hd.contents⟩
  · rw [hx, hy]
    exact .error h

theorem remove_attempts (c : Contents) (item : Option ItemId) :
    Attempts φ id (tryRemove column self c item)
      (tryRemove column' self' (c.rename φ) (item.map φ)) := by
  cases item with
  | none => exact .error rfl
  | some i =>
    have hitem : ((fun e : Entry => decide (e.item = φ i)) ∘ Entry.rename φ) =
        fun e => decide (e.item = i) := by
      funext e
      simp
    simp only [Option.map_some, tryRemove, takeOut, Contents.mem_active_rename, Equiv.symm_apply_apply,
      Contents.entries_rename, List.findIdx_map, hitem, List.eraseIdx_map]
    split
    · exact .ok ⟨rfl, (Contents.rename_reindex φ (c.withEntries _)).symm⟩
    · exact .error rfl

theorem populate_attempts (hcol : ∀ i, column' (φ i) = column i) (c : Contents)
    (given : List (String × Option ItemId)) :
    Attempts φ id (tryPopulate column self c given)
      (tryPopulate column' self' (c.rename φ) (given.map fun e => (e.1, e.2.map φ))) := by
  have hgiven : (given.map fun e => (e.1, e.2.map φ)).map (fun e => (e.2, some e.1)) =
      renameGiven φ (given.map fun e => (e.2, some e.1)) := by
    simp [renameGiven]
  unfold tryPopulate checkEntries
  rw [hgiven]
  obtain ⟨is, _, hx, hy, rfl⟩ | ⟨r, s, hx, hy, h⟩ :=
    (checkAll_alike hcol (given.map fun e => (e.2, some e.1))).cases
  · rw [hx, hy]
    simp only [appendFree_rename hcol]
    obtain ⟨appended, deferred⟩ := appendFree column c is
    have hd := each_renamed (supplant_renamed hcol self self') appended deferred
    exact .ok ⟨by simp [hd.value], hd.contents⟩
  · rw [hx, hy]
    exact .error h

end Dedupe

/-! ## Lenient collections -/

namespace Lenient

variable {column column' : ItemId → Column} {self self' : Reference}

theorem add_attempts (hcol : ∀ i, column' (φ i) = column i) (c : Contents)
    (item : Option ItemId) (key : Option String) :
    Attempts φ id (tryAdd column self c item key)
      (tryAdd column' self' (c.rename φ) (item.map φ) key) := by
  cases item with
  | none => exact .error rfl
  | some i =>
    simp only [Option.map_some, tryAdd, hcol]
    exact .ok ⟨rfl, (c.rename_append φ ⟨_, i⟩).symm⟩

theorem allPresent_rename (φ : Equiv.Perm ItemId) (items : List (Option ItemId)) :
    allPresent (items.map (Option.map φ)) = (allPresent items).map (List.map φ) := by
  unfold allPresent
  induction items with
  | nil => rfl
  | cons item rest ih =>
    cases item with
    | none => rfl
    | some i =>
      simp only [List.map_cons, Option.map_some, List.mapM_cons, ih]
      cases rest.mapM id <;> rfl

theorem extend_attempts (hcol : ∀ i, column' (φ i) = column i) (c : Contents)
    (items : List (Option ItemId)) :
    Attempts φ id (tryExtend column self c items)
      (tryExtend column' self' (c.rename φ) (items.map (Option.map φ))) := by
  unfold tryExtend
  rw [allPresent_rename]
  cases allPresent items with
  | none => exact .error rfl
  | some is =>
    have hentries : (is.map φ).map (fun i => (⟨(column' i).key, i⟩ : Entry)) =
        (is.map fun i => ⟨(column i).key, i⟩).map (Entry.rename φ) := by
      simp [hcol, Entry.rename]
    simp only [Option.map_some, hentries, ← Contents.rename_foldl_append]
    exact .ok ⟨rfl, rfl⟩

end Lenient

/-! ## Calls -/

def Result.rename (φ : Equiv.Perm ItemId) : Result → Result
  | flag value => .flag value
  | item value => .item (value.map φ)

namespace Call

/-- The call with other items. -/
def rename (φ : Equiv.Perm ItemId) : Call → Call
  | lookupKey key => lookupKey key
  | lookupPosition position => lookupPosition position
  | containsItem item => containsItem (item.map φ)
  | add item key => add (item.map φ) key
  | extend items => extend (items.map (Option.map φ))
  | replace item => replace (item.map φ)
  | remove item => remove (item.map φ)
  | populate entries => populate (entries.map fun e => (e.1, e.2.map φ))

theorem operation_rename (φ : Equiv.Perm ItemId) (call : Call) :
    (call.rename φ).operation = call.operation := by
  cases call <;> rfl

theorem isFor_rename (φ : Equiv.Perm ItemId) (call : Call) (kind : Kind) :
    (call.rename φ).isFor kind = call.isFor kind := by
  cases call <;> rfl

theorem silent_rename (φ : Equiv.Perm ItemId) (call : Call) (kind : Kind) :
    (call.rename φ).Silent kind ↔ call.Silent kind := by
  cases call <;> simp [rename, Silent]

theorem neutral_rename (φ : Equiv.Perm ItemId) (call : Call) :
    (call.rename φ).neutral = call.neutral.rename φ := by
  cases call <;> rfl

theorem items_rename (φ : Equiv.Perm ItemId) (call : Call) :
    (call.rename φ).items = call.items.map φ := by
  cases call with
  | lookupKey | lookupPosition => rfl
  | containsItem item | add item | replace item | remove item => cases item <;> rfl
  | extend is => simp [rename, items, List.filterMap_map, List.map_filterMap]
  | populate es => simp [rename, items, List.filterMap_map, List.map_filterMap]

variable {column column' : ItemId → Column} {self self' : Reference}

theorem lookupKey_attempts (kind : Kind) (c : Contents) (key : String) :
    Attempts φ (Option.map φ) (c.lookupKey kind key) ((c.rename φ).lookupKey kind key) := by
  unfold Contents.lookupKey
  rw [Contents.find?_rename]
  cases c.find? key with
  | none => exact .error rfl
  | some i => exact .ok ⟨rfl, rfl⟩

theorem lookupPosition_attempts (kind : Kind) (c : Contents) (position : Nat) :
    Attempts φ (Option.map φ) (c.lookupPosition kind position)
      ((c.rename φ).lookupPosition kind position) := by
  unfold Contents.lookupPosition
  rw [Contents.items_rename, List.getElem?_map]
  cases c.items[position]? with
  | none => exact .error rfl
  | some i => exact .ok ⟨rfl, rfl⟩

/-- A call does the same to renamed contents, of any kind, if it is given the renamed items. -/
theorem attempt_rename (hcol : ∀ i, column' (φ i) = column i) (kind : Kind) (c : Contents)
    (call : Call) :
    Attempts φ (Result.rename φ) (call.attempt column self kind c)
      ((call.rename φ).attempt column' self' kind (c.rename φ)) := by
  have hflag : ∀ {x y : Except Refusal (Done Bool)}, Attempts φ id x y →
      Attempts φ (Result.rename φ) (x.map (·.map .flag)) (y.map (·.map .flag)) :=
    fun h => h.map fun _ => rfl
  have hitem : ∀ {x y : Except Refusal (Done (Option ItemId))}, Attempts φ (Option.map φ) x y →
      Attempts φ (Result.rename φ) (x.map (·.map .item)) (y.map (·.map .item)) :=
    fun h => h.map fun _ => rfl
  cases call with
  | lookupKey key =>
    have h := hitem (lookupKey_attempts kind c key)
    cases kind <;> exact h
  | lookupPosition position =>
    have h := hitem (lookupPosition_attempts kind c position)
    cases kind <;> exact h
  | containsItem item => cases kind <;> exact .error rfl
  | add item key =>
    cases kind with
    | view => exact .error rfl
    | lenient => exact hflag (Lenient.add_attempts hcol c item key)
    | dedupe => exact hflag (Dedupe.add_attempts hcol c item key)
  | extend items =>
    cases kind with
    | view => exact .error rfl
    | lenient => exact hflag (Lenient.extend_attempts hcol c items)
    | dedupe => exact hflag (Dedupe.extend_attempts hcol c items)
  | replace item =>
    cases kind with
    | view => exact .error rfl
    | lenient | dedupe => exact hflag (Dedupe.replace_attempts hcol c item)
  | remove item =>
    cases kind with
    | view => exact .error rfl
    | lenient | dedupe => exact hflag (Dedupe.remove_attempts c item)
  | populate entries =>
    cases kind with
    | view => exact .error rfl
    | lenient | dedupe => exact hflag (Dedupe.populate_attempts hcol c entries)

end Call

end KeyedColumns
