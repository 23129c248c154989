import KeyedColumns.Proofs.Coherence
import KeyedColumns.Proofs.Refusal
import Mathlib.Logic.Relation

/-!
# What calls do to contents

Whatever a call on a deduplicating collection does comes about by four kinds of change, each of which
keeps it deduplicated, and faithful if it was. A call on a lenient collection appends.
-/

namespace KeyedColumns

namespace Dedupe

/-- One change of the contents of a deduplicating collection; `known` are the items it may bring in. -/
inductive Change (column : ItemId → Column) (known : ItemId → Prop) (c : Contents) :
    Contents → Prop where
  | append (i : ItemId) (hi : known i) (hk : (column i).key ≠ "")
    (hf : c.find? (column i).key = none) : Change column known c (c.append ⟨(column i).key, i⟩)
  | takePlace (i old : ItemId) (p : Nat) (hi : known i) (hne : old ≠ i)
    (hf : c.find? (column i).key = some old)
    (hp : c.index.firstPosition.find? (column i).key = some p) :
    Change column known c (takePlace c p old i (column i).key)
  | supplant (i : ItemId) (hi : known i) (hk : (column i).key ≠ "") :
    Change column known c
      (c.withEntries (before column c i ++ ⟨(column i).key, i⟩ :: after column c i)).reindex
  | remove (i : ItemId) (hi : i ∈ c.active) :
    Change column known c
      (c.withEntries (c.entries.eraseIdx (c.entries.findIdx (·.item = i)))).reindex

/-- Any number of changes. -/
abbrev Changes (column : ItemId → Column) (known : ItemId → Prop) : Contents → Contents → Prop :=
  Relation.ReflTransGen (Change column known)

variable {column : ItemId → Column} {known : ItemId → Prop} {self : Reference}

/-! ## Operations are changes -/

theorem put_changes (c : Contents) {i : ItemId} (hi : known i) (hk : (column i).key ≠ "") :
    Changes column known c (put column self c i).contents := by
  unfold put
  simp only
  split
  · next hf => exact .single (.append i hi hk hf)
  · next old hf =>
    split
    · exact .refl
    · next hne =>
      split
      · exact .refl
      · next p hp => exact .single (.takePlace i old p hi hne hf hp)

theorem supplant_changes (c : Contents) {i : ItemId} (hi : known i) (hk : (column i).key ≠ "") :
    Changes column known c (supplant column self c i).contents := by
  unfold supplant
  simp only
  split
  · exact .refl
  · exact .single (.supplant i hi hk)

theorem each_changes {operation : Contents → ItemId → Done Bool} {is : List ItemId}
    (h : ∀ c, ∀ i ∈ is, Changes column known c (operation c i).contents) (c : Contents) :
    Changes column known c (each operation c is).contents := by
  induction is generalizing c with
  | nil => exact .refl
  | cons i rest ih =>
    have hfirst := h c i List.mem_cons_self
    exact hfirst.trans (ih (fun c j hj => h c j (List.mem_cons_of_mem i hj)) _)

theorem find?_of_not_collides {c : Contents} {i : ItemId} (h : ¬ collides column c i) :
    c.find? (column i).key = none := by
  unfold collides at h
  rw [Bool.or_eq_true, not_or] at h
  simpa using h.2

theorem appendFree_changes (c : Contents) {is : List ItemId}
    (h : ∀ i ∈ is, known i ∧ (column i).key ≠ "") :
    Changes column known c (appendFree column c is).1 := by
  induction is generalizing c with
  | nil => exact .refl
  | cons i rest ih =>
    obtain ⟨hi, hk⟩ := h i List.mem_cons_self
    have hrest := fun c => ih c fun j hj => h j (List.mem_cons_of_mem i hj)
    unfold appendFree
    split
    · exact hrest c
    · next hc =>
      exact .head (.append i hi hk (find?_of_not_collides hc)) (hrest _)

/-! ## Calls are changes -/

theorem add_changes {c : Contents} {item : Option ItemId} {key : Option String} {d : Done Bool}
    (h : tryAdd column self c item key = .ok d) (hi : ∀ i ∈ item, known i) :
    Changes column known c d.contents := by
  unfold tryAdd at h
  split at h
  · cases h
  · next i hc =>
    cases h
    obtain ⟨hg, hk⟩ := check_ok hc
    exact put_changes c (hi i hg) hk

theorem extend_changes {c : Contents} {items : List (Option ItemId)} {d : Done Bool}
    (h : tryExtend column self c items = .ok d) (hi : ∀ i, some i ∈ items → known i) :
    Changes column known c d.contents := by
  unfold tryExtend at h
  split at h
  · cases h
  · next is hc =>
    cases h
    refine each_changes (fun c i him => ?_) c
    obtain ⟨⟨g, hg, hgi⟩, hk⟩ := checkAll_mem hc him
    obtain ⟨o, ho, rfl⟩ := List.mem_map.mp hg
    exact put_changes c (hi i (hgi ▸ ho)) hk

theorem replace_changes {c : Contents} {item : Option ItemId} {d : Done Bool}
    (h : tryReplace column self c item = .ok d) (hi : ∀ i ∈ item, known i) :
    Changes column known c d.contents := by
  unfold tryReplace at h
  split at h
  · cases h
  · next i hc =>
    cases h
    obtain ⟨hg, hk⟩ := check_ok hc
    have h : Changes column known c (supplant column self c i).contents :=
      supplant_changes c (hi i hg) hk
    exact h

theorem remove_changes {c : Contents} {item : Option ItemId} {d : Done Bool}
    (h : tryRemove column self c item = .ok d) : Changes column known c d.contents := by
  unfold tryRemove at h
  split at h
  · cases h
  · next i =>
    split at h
    · next hi =>
      cases h
      exact .single (.remove i hi)
    · cases h

theorem populate_changes {c : Contents} {given : List (String × Option ItemId)} {d : Done Bool}
    (h : tryPopulate column self c given = .ok d) (hi : ∀ g ∈ given, ∀ i ∈ g.2, known i) :
    Changes column known c d.contents := by
  unfold tryPopulate at h
  split at h
  · cases h
  · next is hc =>
    cases h
    have his : ∀ i ∈ is, known i ∧ (column i).key ≠ "" := by
      intro i him
      obtain ⟨⟨g, hg, hgi⟩, hk⟩ := checkEntries_mem hc him
      exact ⟨hi g hg i hgi, hk⟩
    refine (appendFree_changes c his).trans (each_changes (fun c i hd => ?_) _)
    obtain ⟨hki, hk⟩ := his i ((deferred_sublist column _ is).subset hd)
    exact supplant_changes c hki hk

theorem construct_changes {given : List (String × Option ItemId)} {d : Done Unit}
    (h : tryConstruct column self given = .ok d) (hi : ∀ g ∈ given, ∀ i ∈ g.2, known i) :
    Changes column known Contents.empty d.contents := by
  unfold tryConstruct at h
  split at h
  · cases h
  · next is hc =>
    cases h
    refine each_changes (fun c i him => ?_) _
    obtain ⟨⟨g, hg, hgi⟩, hk⟩ := checkEntries_mem hc him
    exact put_changes c (hi g hg i hgi) hk

end Dedupe

/-! ## Lenient calls append -/

namespace Lenient

variable {column : ItemId → Column} {self : Reference}

theorem add_appends {c : Contents} {item : Option ItemId} {key : Option String} {d : Done Bool}
    (h : tryAdd column self c item key = .ok d) :
    ∃ e : Entry, some e.item = item ∧ d.contents = c.append e := by
  unfold tryAdd at h
  split at h
  · cases h
  · next i =>
    cases h
    exact ⟨⟨key.getD (column i).key, i⟩, rfl, rfl⟩

theorem extend_appends {c : Contents} {items : List (Option ItemId)} {d : Done Bool}
    (h : tryExtend column self c items = .ok d) :
    ∃ es : List Entry, (∀ e ∈ es, some e.item ∈ items) ∧
      d.contents = es.foldl Contents.append c := by
  unfold tryExtend at h
  split at h
  · cases h
  · next is his =>
    cases h
    refine ⟨is.map fun i => ⟨(column i).key, i⟩, ?_, rfl⟩
    intro e he
    obtain ⟨i, hi, rfl⟩ := List.mem_map.mp he
    rw [allPresent_eq_some_iff.mp his]
    exact List.mem_map.mpr ⟨i, hi, rfl⟩

theorem construct_appends {given : List (String × Option ItemId)} {d : Done Unit}
    (h : tryConstruct self given = .ok d) :
    ∃ es : List Entry, given = es.map (fun e => (e.key, some e.item)) ∧
      d.contents = es.foldl Contents.append Contents.empty := by
  unfold tryConstruct at h
  split at h
  · cases h
  · next es hes =>
    cases h
    exact ⟨es, checkEntries_ok hes, rfl⟩

end Lenient

/-! ## Calls of each kind -/

theorem map_ok {α β : Type} {x : Except Refusal (Done α)} {f : α → β} {d : Done β}
    (h : x.map (·.map f) = .ok d) : ∃ u, x = .ok u ∧ d.contents = u.contents := by
  cases x with
  | error r => cases h
  | ok u =>
    cases h
    exact ⟨u, rfl, rfl⟩

theorem lookupKey_contents {kind : Kind} {c : Contents} {key : String} {d : Done (Option ItemId)}
    (h : c.lookupKey kind key = .ok d) : d.contents = c := by
  unfold Contents.lookupKey at h
  split at h
  · cases h; rfl
  · cases h

theorem lookupPosition_contents {kind : Kind} {c : Contents} {position : Nat}
    {d : Done (Option ItemId)} (h : c.lookupPosition kind position = .ok d) : d.contents = c := by
  unfold Contents.lookupPosition at h
  split at h
  · cases h; rfl
  · cases h

namespace Call

variable {column : ItemId → Column} {self : Reference} {c : Contents} {call : Call} {d : Done Result}

theorem attempt_view (h : call.attempt column self .view c = .ok d) : d.contents = c := by
  cases call <;> simp only [attempt] at h
  case lookupKey =>
    obtain ⟨u, hu, hd⟩ := map_ok h
    rw [hd, lookupKey_contents hu]
  case lookupPosition =>
    obtain ⟨u, hu, hd⟩ := map_ok h
    rw [hd, lookupPosition_contents hu]
  all_goals cases h

theorem attempt_lenient (h : call.attempt column self .lenient c = .ok d)
    (hfor : call.isFor .lenient) :
    ∃ es : List Entry, (∀ e ∈ es, e.item ∈ call.items) ∧
      d.contents = es.foldl Contents.append c := by
  cases call <;> simp only [attempt] at h
  case lookupKey =>
    obtain ⟨u, hu, hd⟩ := map_ok h
    exact ⟨[], by simp, by rw [hd, lookupKey_contents hu]; rfl⟩
  case lookupPosition =>
    obtain ⟨u, hu, hd⟩ := map_ok h
    exact ⟨[], by simp, by rw [hd, lookupPosition_contents hu]; rfl⟩
  case containsItem => cases h
  case add item key =>
    obtain ⟨u, hu, hd⟩ := map_ok h
    obtain ⟨e, he, hc⟩ := Lenient.add_appends hu
    refine ⟨[e], ?_, by rw [hd, hc]; rfl⟩
    rw [items, ← he]
    simp
  case extend is =>
    obtain ⟨u, hu, hd⟩ := map_ok h
    obtain ⟨es, he, hc⟩ := Lenient.extend_appends hu
    refine ⟨es, fun e hm => ?_, by rw [hd, hc]⟩
    exact List.mem_filterMap.mpr ⟨_, he e hm, rfl⟩
  all_goals simp [isFor] at hfor

/-- A call on a deduplicating collection makes changes, and brings in only items that it names. -/
theorem attempt_dedupe (h : call.attempt column self .dedupe c = .ok d) {known : ItemId → Prop}
    (hi : ∀ i ∈ call.items, known i) : Dedupe.Changes column known c d.contents := by
  cases call <;> simp only [attempt] at h
  case lookupKey =>
    obtain ⟨u, hu, hd⟩ := map_ok h
    rw [hd, lookupKey_contents hu]
  case lookupPosition =>
    obtain ⟨u, hu, hd⟩ := map_ok h
    rw [hd, lookupPosition_contents hu]
  case containsItem => cases h
  case add item key =>
    obtain ⟨u, hu, hd⟩ := map_ok h
    rw [hd]
    exact Dedupe.add_changes hu fun i hm => hi i (Option.mem_toList.mpr hm)
  case extend is =>
    obtain ⟨u, hu, hd⟩ := map_ok h
    rw [hd]
    exact Dedupe.extend_changes hu fun i hm => hi i (List.mem_filterMap.mpr ⟨_, hm, rfl⟩)
  case replace item =>
    obtain ⟨u, hu, hd⟩ := map_ok h
    rw [hd]
    exact Dedupe.replace_changes hu fun i hm => hi i (Option.mem_toList.mpr hm)
  case remove item =>
    obtain ⟨u, hu, hd⟩ := map_ok h
    rw [hd]
    exact Dedupe.remove_changes hu
  case populate es =>
    obtain ⟨u, hu, hd⟩ := map_ok h
    rw [hd]
    exact Dedupe.populate_changes hu fun g hg i hm => hi i (List.mem_filterMap.mpr ⟨g, hg, hm⟩)

end Call

end KeyedColumns
