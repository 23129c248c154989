import KeyedColumns.Proofs.Attempt
import Mathlib.Data.List.Basic
import Mathlib.Tactic.Push
import Mathlib.Tactic.Tauto

/-!
# What is refused

A call that brings items in is refused as soon as one of them offends, wherever it stands in the
batch, and for what is wrong with the first that does.
-/

namespace KeyedColumns

/-- Why a collection of a kind does not take an item, with the key given for it if there is one. -/
inductive Offends (column : ItemId → Column) : Kind → Option ItemId × Option String → Prop where
  | missing (kind : Kind) (given : Option String) : Offends column kind (none, given)
  | mismatched (i : ItemId) (key : String) (h : key ≠ (column i).key) :
    Offends column .dedupe (some i, some key)
  | unnamed (i : ItemId) (given : Option String) (h : (column i).key = "") :
    Offends column .dedupe (some i, given)

/-- What is found wrong with an item. A missing item has no key to differ from the given one, and a key
is found empty only if it does not differ from the given one. -/
inductive Fault (column : ItemId → Column) :
    Kind → Option ItemId × Option String → CollectionError → Prop where
  | missing (kind : Kind) (given : Option String) : Fault column kind (none, given) .nullItem
  | mismatched (i : ItemId) (key : String) (h : key ≠ (column i).key) :
    Fault column .dedupe (some i, some key) .keyMismatch
  | unnamed (i : ItemId) (given : Option String) (hg : ∀ key ∈ given, key = (column i).key)
    (h : (column i).key = "") : Fault column .dedupe (some i, given) .unnamedItem

/-- What is wrong with the first element of a batch that offends. -/
def FirstFault (column : ItemId → Column) (kind : Kind)
    (given : List (Option ItemId × Option String)) (e : CollectionError) : Prop :=
  ∃ before x after, given = before ++ x :: after ∧
    (∀ y ∈ before, ¬ Offends column kind y) ∧ Fault column kind x e

variable {column : ItemId → Column} {self : Reference} {kind : Kind} {c : Contents} {call : Call}
  {x : Option ItemId × Option String} {given : List (Option ItemId × Option String)}
  {e : CollectionError}

theorem not_offends {i : ItemId} {given : Option String} (hown : ∀ key ∈ given, key = (column i).key)
    (hne : (column i).key ≠ "") : ¬ Offends column .dedupe (some i, given) := by
  rintro (_ | ⟨_, key, hk⟩ | ⟨_, _, hk⟩)
  · exact hk (hown key rfl)
  · exact hne hk

/-! ## The first that offends -/

theorem exists_fault_iff : (∃ e, Fault column kind x e) ↔ Offends column kind x := by
  constructor
  · rintro ⟨e, h⟩
    cases h with
    | missing => exact .missing _ _
    | mismatched i key h => exact .mismatched i key h
    | unnamed i given _ h => exact .unnamed i given h
  · intro h
    cases h with
    | missing => exact ⟨_, .missing _ _⟩
    | mismatched i key h => exact ⟨_, .mismatched i key h⟩
    | unnamed i given h =>
      -- A key that differs from the item's own is found before the own is looked at.
      by_cases hg : ∀ key ∈ given, key = (column i).key
      · exact ⟨_, .unnamed i given hg h⟩
      · push Not at hg
        obtain ⟨key, rfl, hne⟩ := hg
        exact ⟨_, .mismatched i key hne⟩

theorem firstFault_nil : ¬ FirstFault column kind [] e := by
  rintro ⟨before, x, after, h, -⟩
  simp at h

theorem firstFault_cons :
    FirstFault column kind (x :: given) e ↔
      Fault column kind x e ∨ ¬ Offends column kind x ∧ FirstFault column kind given e := by
  constructor
  · rintro ⟨before, y, after, h, hb, hy⟩
    obtain ⟨rfl, h⟩ | ⟨before, rfl, rfl⟩ := List.cons_eq_append_iff.mp h
    · cases h
      exact .inl hy
    · exact .inr ⟨hb x List.mem_cons_self, before, y, after, rfl,
        fun w hw => hb w (List.mem_cons_of_mem x hw), hy⟩
  · rintro (hx | ⟨hx, before, y, after, rfl, hb, hy⟩)
    · exact ⟨[], x, given, rfl, by simp, hx⟩
    · exact ⟨x :: before, y, after, rfl, List.forall_mem_cons.mpr ⟨hx, hb⟩, hy⟩

theorem exists_firstFault_iff :
    (∃ e, FirstFault column kind given e) ↔ ∃ x ∈ given, Offends column kind x := by
  induction given with
  | nil => simp [firstFault_nil]
  | cons x rest ih =>
    simp only [firstFault_cons, List.exists_mem_cons_iff, exists_or, exists_and_left, ih,
      exists_fault_iff]
    tauto

theorem offends_lenient_iff : Offends column .lenient x ↔ x.1 = none := by
  constructor
  · rintro ⟨⟩
    rfl
  · obtain ⟨_, given⟩ := x
    rintro rfl
    exact .missing _ _

theorem fault_lenient_iff : Fault column .lenient x e ↔ x.1 = none ∧ e = .nullItem := by
  constructor
  · rintro ⟨⟩
    exact ⟨rfl, rfl⟩
  · obtain ⟨_, given⟩ := x
    rintro ⟨rfl, rfl⟩
    exact .missing _ _

theorem firstFault_lenient_iff :
    FirstFault column .lenient given e ↔ e = .nullItem ∧ ∃ x ∈ given, x.1 = none := by
  induction given with
  | nil => simp [firstFault_nil]
  | cons x rest ih =>
    rw [firstFault_cons, ih, fault_lenient_iff, offends_lenient_iff, List.exists_mem_cons_iff]
    tauto

/-! ## Checks -/

namespace Dedupe

theorem check_ok_iff {item : Option ItemId} {given : Option String} {i : ItemId} :
    check column item given = .ok i ↔
      item = some i ∧ (∀ key ∈ given, key = (column i).key) ∧ (column i).key ≠ "" := by
  cases item with
  | none => simp [check]
  | some j =>
    simp only [check, Option.some.injEq]
    split
    · next key hk =>
      obtain ⟨hgiven, hne⟩ := Option.filter_eq_some_iff.mp hk
      simp only [reduceCtorEq, false_iff]
      rintro ⟨rfl, hown, -⟩
      have hne : key ≠ (column j).key := by simpa using hne
      exact hne (hown key hgiven)
    · next hk =>
      have hown : ∀ key ∈ given, key = (column j).key := by simpa using hk
      split
      · next he =>
        simp only [reduceCtorEq, false_iff]
        rintro ⟨rfl, -, hne⟩
        exact hne he
      · next hne =>
        constructor
        · intro h
          cases h
          exact ⟨rfl, hown, hne⟩
        · rintro ⟨rfl, -, -⟩
          rfl

theorem errorOf_check {item : Option ItemId} {key : Option String} :
    errorOf (check column item key) = some e ↔ Fault column .dedupe (item, key) e := by
  cases item with
  | none =>
    simp only [check, errorOf, Refusal.of, Option.some.injEq]
    constructor
    · rintro rfl
      exact .missing _ _
    · rintro ⟨⟩
      rfl
  | some i =>
    simp only [check]
    split
    · next k hk =>
      obtain ⟨rfl, hne⟩ := Option.filter_eq_some_iff.mp hk
      have hne : k ≠ (column i).key := by simpa using hne
      simp only [errorOf, Refusal.of, Option.some.injEq]
      constructor
      · rintro rfl
        exact .mismatched i k hne
      · rintro (_ | _ | ⟨_, _, hown, -⟩)
        · rfl
        · exact absurd (hown k rfl) hne
    · next hk =>
      have hown : ∀ k ∈ key, k = (column i).key := by simpa using hk
      split
      · next he =>
        simp only [errorOf, Refusal.of, Option.some.injEq]
        constructor
        · rintro rfl
          exact .unnamed i key hown he
        · rintro (_ | ⟨_, k, hne⟩ | _)
          · exact absurd (hown k rfl) hne
          · rfl
      · next he =>
        simp only [errorOf, reduceCtorEq, false_iff]
        rintro (_ | ⟨_, k, hne⟩ | ⟨_, _, -, h⟩)
        · exact hne (hown k rfl)
        · exact he h

theorem errorOf_checkAll :
    errorOf (checkAll column given) = some e ↔ FirstFault column .dedupe given e := by
  induction given with
  | nil => simp [checkAll, errorOf, firstFault_nil]
  | cons x rest ih =>
    obtain ⟨item, key⟩ := x
    rw [firstFault_cons, ← exists_fault_iff, ← ih]
    simp only [checkAll, ← errorOf_check]
    cases check column item key with
    | error f => simp [errorOf]
    | ok i => cases checkAll column rest <;> simp [errorOf]

end Dedupe

namespace Lenient

theorem checkEntries_error {given : List (String × Option ItemId)} {f : Refusal}
    (h : checkEntries given = .error f) :
    ∃ key, f = .of .checkItems .nullItem [.nullEntry key] := by
  induction given with
  | nil => cases h
  | cons e rest ih =>
    obtain ⟨key, _ | i⟩ := e
    · cases h
      exact ⟨key, rfl⟩
    · unfold checkEntries at h
      split at h
      · cases h
      · next hrest =>
        cases h
        exact ih hrest

theorem checkEntries_ok {given : List (String × Option ItemId)} {es : List Entry}
    (h : checkEntries given = .ok es) : given = es.map fun e => (e.key, some e.item) := by
  induction given generalizing es with
  | nil =>
    cases h
    rfl
  | cons g rest ih =>
    obtain ⟨key, item⟩ := g
    cases item with
    | none => cases h
    | some i =>
      simp only [checkEntries] at h
      split at h
      · next fs hfs =>
        cases h
        rw [List.map_cons, ← ih hfs]
      · cases h

theorem errorOf_checkEntries {given : List (String × Option ItemId)} :
    errorOf (checkEntries given) = some e ↔
      FirstFault column .lenient (given.map fun g => (g.2, some g.1)) e := by
  induction given with
  | nil => simp [checkEntries, errorOf, firstFault_nil]
  | cons g rest ih =>
    obtain ⟨key, item⟩ := g
    rw [List.map_cons, firstFault_cons, ← ih, fault_lenient_iff, offends_lenient_iff]
    cases item with
    | none => simp [checkEntries, errorOf, Refusal.of, eq_comm]
    | some i =>
      simp only [checkEntries]
      cases checkEntries rest <;> simp [errorOf]

end Lenient

namespace Dedupe

theorem checkAll_error {given : List (Option ItemId × Option String)} {f : Refusal}
    (h : checkAll column given = .error f) : ∃ item key, check column item key = .error f := by
  induction given with
  | nil => cases h
  | cons x rest ih =>
    obtain ⟨item, key⟩ := x
    unfold checkAll at h
    split at h
    · next hx =>
      cases h
      exact ⟨item, key, hx⟩
    · split at h
      · next hrest =>
        cases h
        exact ih hrest
      · cases h

/-! ## Checked items -/

theorem check_ok {item : Option ItemId} {given : Option String} {i : ItemId}
    (h : check column item given = .ok i) : item = some i ∧ (column i).key ≠ "" := by
  obtain ⟨hitem, -, hk⟩ := check_ok_iff.mp h
  exact ⟨hitem, hk⟩

theorem checkAll_ok {given : List (Option ItemId × Option String)} {is : List ItemId}
    (h : checkAll column given = .ok is) :
    given.map (·.1) = is.map some ∧ ∀ i ∈ is, (column i).key ≠ "" := by
  induction given generalizing is with
  | nil =>
    cases h
    exact ⟨rfl, by simp⟩
  | cons g rest ih =>
    unfold checkAll at h
    split at h
    · cases h
    · next i hi =>
      split at h
      · cases h
      · next js hjs =>
        cases h
        obtain ⟨hg, hk⟩ := check_ok hi
        obtain ⟨hmap, hks⟩ := ih hjs
        refine ⟨by simp [hg, hmap], ?_⟩
        intro j hj
        rcases List.mem_cons.mp hj with rfl | hj
        · exact hk
        · exact hks j hj

theorem checkAll_mem {given : List (Option ItemId × Option String)} {is : List ItemId}
    (h : checkAll column given = .ok is) {i : ItemId} (hi : i ∈ is) :
    (∃ g ∈ given, g.1 = some i) ∧ (column i).key ≠ "" := by
  obtain ⟨hmap, hk⟩ := checkAll_ok h
  have hm : some i ∈ given.map (·.1) := by
    rw [hmap]
    exact List.mem_map_of_mem hi
  exact ⟨List.mem_map.mp hm, hk i hi⟩

theorem checkEntries_ok {given : List (String × Option ItemId)} {is : List ItemId}
    (h : checkEntries column given = .ok is) :
    given = is.map fun i => ((column i).key, some i) := by
  unfold checkEntries at h
  induction given generalizing is with
  | nil =>
    cases h
    rfl
  | cons g rest ih =>
    obtain ⟨key, item⟩ := g
    rw [List.map_cons, checkAll] at h
    split at h
    · cases h
    · next i hi =>
      split at h
      · cases h
      · next js hjs =>
        cases h
        obtain ⟨rfl, hkey, -⟩ := check_ok_iff.mp hi
        rw [List.map_cons, ← ih hjs, hkey key rfl]

theorem checkEntries_items {given : List (String × Option ItemId)} {is : List ItemId}
    (h : checkEntries column given = .ok is) : given.map (·.2) = is.map some := by
  rw [checkEntries_ok h, List.map_map]
  rfl

theorem checkAll_of_valid {given : List (Option ItemId × Option String)}
    (h : ∀ x ∈ given, ¬ Offends column .dedupe x) :
    checkAll column given = .ok (given.filterMap (·.1)) := by
  cases hd : checkAll column given with
  | error f =>
    obtain ⟨x, hx, ho⟩ := exists_firstFault_iff.mp ⟨f.error, errorOf_checkAll.mp (by rw [hd]; rfl)⟩
    exact absurd ho (h x hx)
  | ok is =>
    have hitems : given.filterMap (·.1) = (given.map (·.1)).filterMap id := by
      rw [List.filterMap_map]
      rfl
    rw [hitems, (checkAll_ok hd).1, List.filterMap_map]
    exact congrArg Except.ok (List.filterMap_some).symm

theorem checkEntries_of_valid {given : List (String × Option ItemId)}
    (h : ∀ g ∈ given, ¬ Offends column .dedupe (g.2, some g.1)) :
    checkEntries column given = .ok (given.filterMap (·.2)) := by
  unfold checkEntries
  rw [checkAll_of_valid (List.forall_mem_map.mpr h), List.filterMap_map]
  rfl

theorem checkEntries_mem {given : List (String × Option ItemId)} {is : List ItemId}
    (h : checkEntries column given = .ok is) {i : ItemId} (hi : i ∈ is) :
    (∃ g ∈ given, g.2 = some i) ∧ (column i).key ≠ "" := by
  obtain ⟨⟨g, hg, hgi⟩, hk⟩ := checkAll_mem h hi
  obtain ⟨e, he, rfl⟩ := List.mem_map.mp hg
  exact ⟨⟨e, he, hgi⟩, hk⟩

end Dedupe

/-! ## Calls -/

namespace Call

/-- The items that a call would bring in, each with the key that is given for it. -/
def offered : Call → List (Option ItemId × Option String)
  | add item key => [(item, key)]
  | extend items => items.map fun i => (i, none)
  | replace item => [(item, none)]
  | populate entries => entries.map fun e => (e.2, some e.1)
  | lookupKey _ | lookupPosition _ | containsItem _ | remove _ => []

/-- Whether a call is meant to change the collection. -/
def mutates : Call → Bool
  | add .. | extend _ | replace _ | remove _ | populate _ => true
  | lookupKey _ | lookupPosition _ | containsItem _ => false

def brings : Call → Bool
  | add .. | extend _ | replace _ | populate _ => true
  | lookupKey _ | lookupPosition _ | containsItem _ | remove _ => false

theorem brings_of_mem_offered (h : x ∈ call.offered) : call.brings := by
  cases call <;> first | rfl | cases h

theorem mutates_of_brings (h : call.brings) : call.mutates := by
  cases call <;> first | rfl | cases h

theorem errorOf_attempt_dedupe (hb : call.brings) :
    errorOf (call.attempt column self .dedupe c) = errorOf (Dedupe.checkAll column call.offered) := by
  cases call with
  | add item key =>
    simp only [attempt, errorOf_map, Dedupe.tryAdd, offered, Dedupe.checkAll]
    cases Dedupe.check column item key <;> rfl
  | extend items =>
    simp only [attempt, errorOf_map, Dedupe.tryExtend, offered]
    cases Dedupe.checkAll column (items.map fun i => (i, none)) <;> rfl
  | replace item =>
    simp only [attempt, errorOf_map, Dedupe.tryReplace, offered, Dedupe.checkAll]
    cases Dedupe.check column item none <;> rfl
  | populate entries =>
    simp only [attempt, errorOf_map, Dedupe.tryPopulate, Dedupe.checkEntries, offered]
    cases Dedupe.checkAll column (entries.map fun e => (e.2, some e.1)) <;> rfl
  | _ => cases hb

theorem errorOf_attempt_lenient (hfor : call.isFor .lenient) (hb : call.brings) :
    errorOf (call.attempt column self .lenient c) = some e ↔
      FirstFault column .lenient call.offered e := by
  rw [firstFault_lenient_iff]
  cases call with
  | add item key =>
    simp only [attempt, errorOf_map, offered]
    cases item <;> simp [Lenient.tryAdd, errorOf, Refusal.of, eq_comm]
  | extend items =>
    have hnone : (∃ x ∈ items.map fun i => (i, (none : Option String)), x.1 = none) ↔
        Lenient.allPresent items = none := by
      simp [Lenient.allPresent_eq_none_iff]
    simp only [attempt, errorOf_map, offered, hnone, Lenient.tryExtend]
    cases Lenient.allPresent items <;> simp [errorOf, Refusal.of, eq_comm]
  | replace _ | populate _ => simp [isFor] at hfor
  | _ => cases hb

/-- A call that brings items in is refused for what is wrong with the first of them that offends. -/
theorem errorOf_attempt_of_brings (hk : kind ≠ .view) (hfor : call.isFor kind) (hb : call.brings) :
    errorOf (call.attempt column self kind c) = some e ↔ FirstFault column kind call.offered e := by
  cases kind with
  | view => exact absurd rfl hk
  | lenient => exact errorOf_attempt_lenient hfor hb
  | dedupe => rw [errorOf_attempt_dedupe hb, Dedupe.errorOf_checkAll]

theorem attempt_error_of_view (h : call.mutates) :
    call.attempt column self .view c = .error (refusal c call.operation) := by
  cases call <;> first | rfl | cases h

theorem attempt_error_of_offends (hfor : call.isFor kind) (hx : x ∈ call.offered)
    (h : Offends column kind x) : ∃ r, call.attempt column self kind c = .error r := by
  have hb := brings_of_mem_offered hx
  by_cases hk : kind = .view
  · subst hk
    exact ⟨_, attempt_error_of_view (mutates_of_brings hb)⟩
  · obtain ⟨e, he⟩ := exists_firstFault_iff.mpr ⟨x, hx, h⟩
    exact exists_error ((errorOf_attempt_of_brings hk hfor hb).mpr he)

end Call

theorem Kind.errorOf_construct (hk : kind ≠ .view) {given : List (String × Option ItemId)} :
    errorOf (kind.construct column self given) = some e ↔
      FirstFault column kind (given.map fun g => (g.2, some g.1)) e := by
  cases kind with
  | view => exact absurd rfl hk
  | dedupe =>
    rw [← Dedupe.errorOf_checkAll]
    simp only [construct, Dedupe.tryConstruct, Dedupe.checkEntries]
    cases Dedupe.checkAll column (given.map fun g => (g.2, some g.1)) <;> simp [errorOf]
  | lenient =>
    rw [← Lenient.errorOf_checkEntries]
    simp only [construct, Lenient.tryConstruct]
    cases Lenient.checkEntries given <;> simp [errorOf]

theorem Kind.construct_error_of_offends (hk : kind ≠ .view)
    {given : List (String × Option ItemId)} {g : String × Option ItemId} (hg : g ∈ given)
    (h : Offends column kind (g.2, some g.1)) :
    ∃ r, kind.construct column self given = .error r := by
  have hm : (g.2, some g.1) ∈ given.map fun g => (g.2, some g.1) := List.mem_map.mpr ⟨g, hg, rfl⟩
  obtain ⟨e, he⟩ := exists_firstFault_iff.mpr ⟨_, hm, h⟩
  exact exists_error ((errorOf_construct hk).mpr he)

end KeyedColumns
