import KeyedColumns.Proofs.Restoring
import KeyedColumns.Proofs.Routines
import KeyedColumns.Registry.Run
import Mathlib.Logic.Function.Basic

/-!
# Where the contents of a slot come from

A view does not say what it is a view of. A lineage keeps, beside the registry, the kind of collection
for which the contents of each slot were made, through views of views, copies, assignments, exchanges
and archives. `Step` says once what an action can do to a registry and its lineage.
-/

namespace KeyedColumns

/-- The kind of collection for which the contents of each slot were made. -/
abbrev Lineage := String → Kind

namespace Registry

/-- The lineage after an action. An action that is malformed or raises leaves it as it is. -/
def lineageAfter (r : Registry) (action : Action) (l : Lineage) : Lineage :=
  match (r.act action).2.outcome, action with
  | .malformed, _ | .reply (.raised _), _ => l
  | _, .create slot kind _ _ _ => Function.update l slot kind
  | _, .freeze slot source | _, .view slot source _ | _, .copy slot source
  | _, .assign slot source => Function.update l slot (l source)
  | _, .swap a b => Function.update (Function.update l a (l b)) b (l a)
  | _, .roundTrip saved restored =>
    fun slot => ((lastFor (saved.zip restored) slot).map l).getD (l slot)
  | _, _ => l

end Registry

/-- A registry and the lineage of its slots, after allowed actions on an empty registry. -/
inductive Traced (allowed : Registry → Action → Prop) : Registry → Lineage → Prop where
  | empty (config : Log.Config) : Traced allowed (Registry.empty config) fun _ => .view
  | act {r : Registry} {l : Lineage} (action : Action) (h : Traced allowed r l)
    (ha : allowed r action) : Traced allowed (r.act action).1 (r.lineageAfter action l)
  | begin {r : Registry} {l : Lineage} (c : Collection) (h : Traced allowed r l) :
    Traced allowed (r.begin c).2 l

theorem traced_of_run {allowed : Registry → Action → Prop} {config : Log.Config} {r : Registry}
    (h : Run allowed (Registry.empty config) r) : ∃ l, Traced allowed r l := by
  induction h with
  | refl => exact ⟨_, .empty config⟩
  | act action _ ha ih =>
    obtain ⟨l, hl⟩ := ih
    exact ⟨_, .act action hl ha⟩
  | begin c _ ih =>
    obtain ⟨l, hl⟩ := ih
    exact ⟨l, .begin c hl⟩

/-! ## What a step can do -/

/-- The slots that may hold something else after an action. -/
def Action.targets : Action → List String
  | .create slot _ _ _ _ | .freeze slot _ | .view slot _ _ | .copy slot _ | .assign slot _
  | .drop slot | .setLogger slot _ => [slot]
  | .swap a b => [a, b]
  | .roundTrip _ restored => restored
  | .call .. | .ask .. | .compare .. | .compareIterators .. | .setDefaultVerbosity ..
  | .setVerbosity .. | .makeItem .. | .setKey .. | .describe _ => []

/-- The contents with which a new collection starts. -/
def Founded (r : Registry) (kind : Kind) (contents : Contents) : Prop :=
  contents = Contents.empty ∨ ∃ self given d,
    (∀ g ∈ given, ∀ i ∈ g.2, r.catalogue.knows i) ∧
      kind.construct r.catalogue.column self given = .ok d ∧ contents = d.contents

/-- All that an allowed action on some slots can do to a registry and its lineage. -/
inductive Step (allowed : Registry → Action → Prop) (targets : List String) (r : Registry)
    (l : Lineage) : Registry → Lineage → Prop where
  /-- Slots hold what slots held before, perhaps as views. -/
  | rearranged {r' : Registry} {l' : Lineage} (hp : r'.parts = r.parts)
    (hcat : r'.catalogue = r.catalogue)
    (hothers : ∀ t, t ∉ targets → r'.collection? t = r.collection? t)
    (hs : ∀ t d, r'.collection? t = some d → ∃ s c, r.collection? s = some c ∧
      d.handle = c.handle ∧ (d.kind = c.kind ∨ d.kind = .view) ∧ l' t = l s) :
    Step allowed targets r l r' l'
  | founded (slot : String) (kind : Kind) (context : Log.Context) (contents : Contents)
    (ht : slot ∈ targets) (hf : Founded r kind contents) :
    Step allowed targets r l (r.establish slot kind context contents) (Function.update l slot kind)
  | copied (slot source : String) (c : Collection) (ht : slot ∈ targets)
    (hc : r.collection? source = some c) (hk : c.kind ≠ .view) :
    Step allowed targets r l (r.establish slot c.kind c.context (r.contents c))
      (Function.update l slot (l source))
  | written (slot : String) (c : Collection) (call : Call) (mode : Mode) (d : Done Result)
    (ha : allowed r (.call slot call mode)) (hc : r.collection? slot = some c)
    (hfor : call.isFor c.kind) (hi : ∀ i ∈ call.items, r.catalogue.knows i)
    (hd : r.attempt slot c call = .ok d) : Step allowed targets r l (r.write c d.contents) l
  | made (label : String) (column : Column) :
    Step allowed targets r l { r with catalogue := r.catalogue.make label column } l
  | rekeyed (i : ItemId) (key : String) (hi : r.catalogue.knows i)
    (ha : allowed r (.setKey i key)) :
    Step allowed targets r l { r with catalogue := r.catalogue.setKey i key } l
  | restored (saved restored : List String) (r' : Registry) (m : Renaming)
    (h : r.Reloaded saved restored r' m) (ht : ∀ u ∈ restored, u ∈ targets) :
    Step allowed targets r l r' fun u => ((lastFor (saved.zip restored) u).map l).getD (l u)

namespace Registry

variable {allowed : Registry → Action → Prop} {targets : List String} {r r' : Registry}
  {l : Lineage}

@[simp] theorem collection?_hold (r : Registry) (slot : String) (c : Collection) (t : String) :
    (r.hold slot c).collection? t = if slot = t then some c else r.collection? t :=
  Dict.find?_put _ _ _ _

@[simp] theorem collection?_drop (r : Registry) (slot t : String) :
    (r.drop slot).collection? t = if slot = t then none else r.collection? t :=
  Dict.find?_erase _ _ _

@[simp] theorem collection?_establish (r : Registry) (slot : String) (kind : Kind)
    (context : Log.Context) (contents : Contents) (t : String) :
    (r.establish slot kind context contents).collection? t =
      if slot = t then some ⟨kind, r.parts.next, context⟩ else r.collection? t :=
  Dict.find?_put _ _ _ _

theorem held_establish {slot : String} {kind : Kind} {context : Log.Context} {contents : Contents}
    {t : String} {d : Collection}
    (hd : (r.establish slot kind context contents).collection? t = some d) :
    (t = slot ∧ d = ⟨kind, r.parts.next, context⟩) ∨ (t ≠ slot ∧ r.collection? t = some d) := by
  rw [collection?_establish] at hd
  split at hd
  · next e => exact Or.inl ⟨e.symm, (Option.some.inj hd).symm⟩
  · next e => exact Or.inr ⟨Ne.symm e, hd⟩

/-! ## Actions that change no slot -/

/-- A registry with the same items, parts and slots. -/
structure Same (r r' : Registry) : Prop where
  parts : r'.parts = r.parts
  catalogue : r'.catalogue = r.catalogue
  slots : r'.slots = r.slots

theorem Same.refl (r : Registry) : r.Same r := ⟨rfl, rfl, rfl⟩

theorem Same.trans {r'' : Registry} (h : r.Same r') (k : r'.Same r'') : r.Same r'' :=
  ⟨k.parts.trans h.parts, k.catalogue.trans h.catalogue, k.slots.trans h.slots⟩

theorem Same.contents (h : r.Same r') (c : Collection) : r'.contents c = r.contents c := by
  unfold Registry.contents
  rw [h.parts]

theorem Same.collection? (h : r.Same r') (slot : String) :
    r'.collection? slot = r.collection? slot := by
  unfold Registry.collection?
  rw [h.slots]

theorem same_begin (r : Registry) (c : Collection) : r.Same (r.begin c).2 := by
  unfold begin
  split
  · exact Same.refl r
  · exact ⟨rfl, rfl, rfl⟩

theorem same_iteratorAt (r : Registry) (c : Collection) (steps : Option Nat) :
    r.Same (r.iteratorAt c steps).2 := by
  cases steps with
  | none => exact Same.refl r
  | some n => exact same_begin r c

theorem same_compareIterators (r : Registry) (c d : Collection) (i j : Option Nat) (same : Bool) :
    r.Same (r.compareIterators c d i j same).1 := by
  unfold compareIterators
  split
  · exact same_begin r c
  · exact (same_iteratorAt r c i).trans (same_iteratorAt _ d j)

theorem Same.step (h : r.Same r') : Step allowed targets r l r' l := by
  refine .rearranged h.parts h.catalogue (fun t _ => h.collection? t) fun t d hd => ?_
  rw [h.collection? t] at hd
  exact ⟨t, d, hd, rfl, Or.inl rfl, rfl⟩

theorem step_refl : Step allowed targets r l r l := (Same.refl r).step

/-! ## Actions on slots -/

theorem step_hold {slot source : String} {c d : Collection} (ht : slot ∈ targets)
    (hc : r.collection? source = some c) (hh : d.handle = c.handle)
    (hk : d.kind = c.kind ∨ d.kind = .view) :
    Step allowed targets r l (r.hold slot d) (Function.update l slot (l source)) := by
  refine .rearranged rfl rfl (fun t hne => ?_) fun t e he => ?_
  · rw [collection?_hold, if_neg (ne_of_mem_of_not_mem ht hne)]
  · rw [collection?_hold] at he
    split at he
    · next heq =>
      cases he
      subst heq
      exact ⟨source, c, hc, hh, hk, Function.update_self ..⟩
    · next hne => exact ⟨t, e, he, rfl, Or.inl rfl, Function.update_of_ne (Ne.symm hne) ..⟩

theorem step_copy {slot source : String} {c : Collection} (ht : slot ∈ targets)
    (hc : r.collection? source = some c) :
    Step allowed targets r l (r.copy slot source c).1 (Function.update l slot (l source)) := by
  unfold copy
  split
  · exact step_hold ht hc rfl (Or.inr rfl)
  · next hk => exact .copied slot source c ht hc hk

theorem step_assign {target source : String} {c : Collection} (ht : target ∈ targets)
    (hc : r.collection? source = some c) :
    Step allowed targets r l (r.assign target source c).1
      (Function.update l target (l source)) := by
  unfold assign
  split
  · next e =>
    subst e
    rw [Function.update_eq_self]
    exact step_refl
  · split
    · exact step_hold ht hc rfl (Or.inr rfl)
    · next hk => exact .copied target source c ht hc hk

theorem step_swap {a b : String} {c d : Collection} (hc : r.collection? a = some c)
    (hd : r.collection? b = some d) :
    Step allowed [a, b] r l (r.swap a b c d)
      (Function.update (Function.update l a (l b)) b (l a)) := by
  refine .rearranged rfl rfl (fun t hne => ?_) fun t e he => ?_
  · have ha : ¬ a = t := ne_of_mem_of_not_mem List.mem_cons_self hne
    have hb : ¬ b = t := ne_of_mem_of_not_mem (List.mem_cons_of_mem _ List.mem_cons_self) hne
    unfold swap
    rw [collection?_hold, if_neg hb, collection?_hold, if_neg ha]
  · unfold swap at he
    rw [collection?_hold, collection?_hold] at he
    by_cases hb : b = t
    · rw [if_pos hb] at he
      cases he
      subst hb
      exact ⟨a, c, hc, rfl, Or.inl rfl, Function.update_self ..⟩
    · rw [if_neg hb] at he
      rw [Function.update_of_ne (Ne.symm hb)]
      split at he
      · next ha =>
        cases he
        subst ha
        exact ⟨b, d, hd, rfl, Or.inl rfl, Function.update_self ..⟩
      · next ha => exact ⟨t, e, he, rfl, Or.inl rfl, Function.update_of_ne (Ne.symm ha) ..⟩

theorem step_drop {slot : String} (ht : slot ∈ targets) :
    Step allowed targets r l (r.drop slot) l := by
  refine .rearranged rfl rfl (fun t hne => ?_) fun t d hd => ?_
  · rw [collection?_drop, if_neg (ne_of_mem_of_not_mem ht hne)]
  · rw [collection?_drop] at hd
    split at hd
    · cases hd
    · exact ⟨t, d, hd, rfl, Or.inl rfl, rfl⟩

theorem step_setLogger {slot : String} {c : Collection} (ht : slot ∈ targets)
    (hc : r.collection? slot = some c) (logger : Option Nat) :
    Step allowed targets r l (r.setLogger slot c logger) l := by
  have h : Step allowed targets r l (r.setLogger slot c logger)
      (Function.update l slot (l slot)) := step_hold ht hc rfl (Or.inl rfl)
  rwa [Function.update_eq_self] at h

theorem step_call {slot : String} {c : Collection} {call : Call} {mode : Mode}
    (ha : allowed r (.call slot call mode)) (hc : r.collection? slot = some c)
    (hfor : call.isFor c.kind) (hi : ∀ i ∈ call.items, r.catalogue.knows i) :
    Step allowed targets r l (r.call slot c call mode).1 l := by
  rw [call_eq]
  cases hd : r.attempt slot c call with
  | ok d => exact .written slot c call mode d ha hc hfor hi hd
  | error f =>
    simp only [contentsAfter, write_contents]
    exact step_refl

theorem knows_of_knows {items : List ItemId} (h : r.knows items) :
    ∀ i ∈ items, r.catalogue.knows i :=
  List.all_eq_true.mp h

/-- A failing construction leaves the slot empty, or as it was when the failure is raised. -/
theorem step_create {slot : String} {kind : Kind} {given : List (String × Option ItemId)}
    (ht : slot ∈ targets) (hi : r.knows (given.filterMap (·.2))) (logger : Option Nat)
    (mode : Mode) :
    Step allowed targets r l (r.act (.create slot kind given logger mode)).1
      (r.lineageAfter (.create slot kind given logger mode) l) := by
  have hknown : ∀ g ∈ given, ∀ i ∈ g.2, r.catalogue.knows i := fun g hg i hgi =>
    knows_of_knows hi i (List.mem_filterMap.mpr ⟨g, hg, hgi⟩)
  unfold lineageAfter act
  simp only [hi, if_true, create_eq]
  cases hd : kind.construct r.catalogue.column (.slot slot) given with
  | ok d =>
    have hf : Founded r kind d.contents := Or.inr ⟨_, given, d, hknown, hd, rfl⟩
    cases mode <;> exact .founded slot kind _ _ ht hf
  | error f =>
    cases mode with
    | code before => exact .founded slot kind _ _ ht (Or.inl rfl)
    | raising => exact step_refl

theorem step_roundTrip (hr : r.catalogue.Numbered) {saved restored : List String}
    (hlen : (r.save saved).collections.length = saved.length)
    (hcan : r.canRestore (r.save saved) restored) :
    Step allowed restored r l (r.restore (r.save saved) restored)
      fun u => ((lastFor (saved.zip restored) u).map l).getD (l u) := by
  obtain ⟨m, h⟩ := restore_reloaded hr hlen hcan
  exact .restored saved restored _ m h fun _ hu => hu

@[simp] theorem lineageAfter_call (slot : String) (call : Call) (mode : Mode) :
    r.lineageAfter (.call slot call mode) l = l := by
  unfold lineageAfter
  cases (r.act (.call slot call mode)).2.outcome with
  | reply reply => cases reply <;> rfl
  | _ => rfl

theorem step_act (hr : r.catalogue.Numbered) {action : Action} (ha : allowed r action) :
    Step allowed action.targets r l (r.act action).1 (r.lineageAfter action l) := by
  cases action with
  | create slot kind given logger mode =>
    by_cases hi : r.knows (given.filterMap (·.2))
    · exact step_create List.mem_cons_self hi logger mode
    · simp only [lineageAfter, act, hi]
      exact step_refl
  | freeze slot source =>
    cases hc : r.collection? source <;> simp only [lineageAfter, act, hc]
    · exact step_refl
    · exact step_hold List.mem_cons_self hc rfl (Or.inr rfl)
  | view slot source logger =>
    cases hc : r.collection? source <;> simp only [lineageAfter, act, hc]
    · exact step_refl
    · exact step_hold List.mem_cons_self hc rfl (Or.inr rfl)
  | copy slot source =>
    cases hc : r.collection? source <;> simp only [lineageAfter, act, hc]
    · exact step_refl
    · exact step_copy List.mem_cons_self hc
  | assign target source =>
    cases ht : r.collection? target <;> cases hc : r.collection? source <;>
      simp only [lineageAfter, act, ht, hc]
    · exact step_refl
    · exact step_refl
    · exact step_refl
    · split
      · exact step_assign List.mem_cons_self hc
      · exact step_refl
  | swap a b =>
    cases hc : r.collection? a <;> cases hd : r.collection? b <;>
      simp only [lineageAfter, act, hc, hd]
    · exact step_refl
    · exact step_refl
    · exact step_refl
    · split
      · exact step_swap hc hd
      · exact step_refl
  | drop slot =>
    cases hc : r.collection? slot <;> simp only [lineageAfter, act, hc]
    · exact step_refl
    · exact step_drop List.mem_cons_self
  | call slot call mode =>
    cases hc : r.collection? slot <;> simp only [lineageAfter_call, act, hc]
    · exact step_refl
    · split
      · next h =>
        rw [Bool.and_eq_true] at h
        exact step_call ha hc h.1 (knows_of_knows h.2)
      · exact step_refl
  | ask slot query =>
    cases hc : r.collection? slot <;> simp only [lineageAfter, act, hc]
    · exact step_refl
    · split <;> exact step_refl
  | compare a b =>
    cases hc : r.collection? a <;> cases hd : r.collection? b <;>
      simp only [lineageAfter, act, hc, hd] <;> exact step_refl
  | compareIterators first second same =>
    cases hc : r.collection? first.slot <;> cases hd : r.collection? second.slot <;>
      simp only [lineageAfter, act, hc, hd]
    · exact step_refl
    · exact step_refl
    · exact step_refl
    · exact (same_compareIterators r _ _ _ _ same).step
  | setLogger slot logger =>
    cases hc : r.collection? slot <;> simp only [lineageAfter, act, hc]
    · exact step_refl
    · exact step_setLogger List.mem_cons_self hc logger
  | setDefaultVerbosity severity reset => exact Same.step ⟨rfl, rfl, rfl⟩
  | setVerbosity severity component =>
    cases hc : r.config.setComponent? severity component <;> simp only [lineageAfter, act, hc]
    · exact step_refl
    · exact Same.step ⟨rfl, rfl, rfl⟩
  | makeItem label column => exact .made label column
  | setKey i key =>
    by_cases hi : r.catalogue.knows i <;> simp only [lineageAfter, act, hi]
    · exact .rekeyed i key hi ha
    · exact step_refl
  | describe i =>
    by_cases hi : r.catalogue.knows i <;> simp only [lineageAfter, act, hi] <;> exact step_refl
  | roundTrip saved restored =>
    simp only [lineageAfter, act]
    split
    · next h =>
      rw [Bool.and_eq_true, decide_eq_true_eq] at h
      exact step_roundTrip hr h.1 h.2
    · exact step_refl

end Registry

end KeyedColumns
