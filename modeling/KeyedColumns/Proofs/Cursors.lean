import KeyedColumns.Proofs.Visiting

/-!
# Iterators that are the same

All ends are the same. Elsewhere two iterators are the same just if they stem from one call of `begin` and
have gone equally far, for every snapshot has a serial number of its own. That holds whatever becomes of
the collections while the iterators are in use.
-/

namespace KeyedColumns

/-! ## Iterators in use -/

/-- An iterator, with the call of `begin` that it stems from, if any, and the steps it has taken. -/
structure Hand where
  iterator : Iterator
  origin : Option Nat
  steps : Nat

namespace Hand

/-- How many items there were to go over: none at an end. -/
def size (calls : List (List ItemId)) (h : Hand) : Nat :=
  ((h.origin.bind (calls[·]?)).getD []).length

/-- As many steps were taken as there were items. Where there were none, steps lead nowhere. -/
def Past (calls : List (List ItemId)) (h : Hand) : Prop :=
  h.steps = h.size calls ∨ h.size calls = 0

instance (calls : List (List ItemId)) (h : Hand) : Decidable (h.Past calls) :=
  inferInstanceAs (Decidable (_ ∨ _))

def next (h : Hand) : Hand := ⟨h.iterator.next, h.origin, h.steps + 1⟩

end Hand

/--
A run with iterators in use: `calls` are the items that were there at each call of `begin`, and `hands`
all iterators there have been. One that takes a step stays among them, as a copy of it would.
-/
inductive Handling : Registry → List (List ItemId) → List Hand → Prop where
  | empty (config : Log.Config) : Handling (.empty config) [] []
  | act {r : Registry} {calls : List (List ItemId)} {hands : List Hand} (action : Action)
    (run : Handling r calls hands) : Handling (r.act action).1 calls hands
  | begin {r : Registry} {calls : List (List ItemId)} {hands : List Hand} {slot : String}
    {c : Collection} (hc : r.collection? slot = some c) (run : Handling r calls hands) :
    Handling (r.begin c).2 (calls ++ [(r.contents c).items])
      (⟨(r.begin c).1, some calls.length, 0⟩ :: hands)
  | past {r : Registry} {calls : List (List ItemId)} {hands : List Hand}
    (run : Handling r calls hands) : Handling r calls (⟨.past, none, 0⟩ :: hands)
  | next {r : Registry} {calls : List (List ItemId)} {hands : List Hand} {h : Hand}
    (hh : h ∈ hands) (hsteps : h.steps < h.size calls ∨ h.size calls = 0)
    (run : Handling r calls hands) : Handling r calls (h.next :: hands)

variable {r : Registry} {calls : List (List ItemId)} {hands : List Hand}

theorem Handling.reachable (run : Handling r calls hands) : Reachable r := by
  induction run with
  | empty config => exact ⟨config, .refl⟩
  | act action _ ih => exact ih.act action
  | begin _ _ ih => exact ih.begin _
  | past _ ih | next _ _ _ ih => exact ih

/-! ## Serial numbers only grow -/

namespace Registry

variable (r : Registry)

theorem snapshots_le_begin (c : Collection) : r.snapshots ≤ (r.begin c).2.snapshots := by
  unfold begin
  split
  · exact Nat.le_refl _
  · exact Nat.le_succ _

theorem snapshots_le_iteratorAt (c : Collection) (steps : Option Nat) :
    r.snapshots ≤ (r.iteratorAt c steps).2.snapshots := by
  cases steps with
  | none => exact Nat.le_refl _
  | some n => exact r.snapshots_le_begin c

theorem snapshots_le_compareIterators (c d : Collection) (i j : Option Nat) (same : Bool) :
    r.snapshots ≤ (r.compareIterators c d i j same).1.snapshots := by
  unfold compareIterators
  split
  · exact r.snapshots_le_begin c
  · exact Nat.le_trans (r.snapshots_le_iteratorAt c i) (snapshots_le_iteratorAt _ d j)

theorem snapshots_le_create (slot : String) (kind : Kind)
    (given : List (String × Option ItemId)) (logger : Option Nat) (mode : Mode) :
    r.snapshots ≤ (r.create slot kind given logger mode).1.snapshots := by
  unfold create
  simp only
  split <;> exact Nat.le_refl _

theorem snapshots_le_copy (slot source : String) (c : Collection) :
    r.snapshots ≤ (r.copy slot source c).1.snapshots := by
  unfold copy
  split <;> exact Nat.le_refl _

theorem snapshots_le_assign (target source : String) (c : Collection) :
    r.snapshots ≤ (r.assign target source c).1.snapshots := by
  unfold assign
  split
  · exact Nat.le_refl _
  · split <;> exact Nat.le_refl _

theorem snapshots_le_call (slot : String) (c : Collection) (call : Call) (mode : Mode) :
    r.snapshots ≤ (r.call slot c call mode).1.snapshots :=
  Nat.le_refl _

theorem snapshots_le_restore (a : Archive) (slots : List String) :
    r.snapshots ≤ (r.restore a slots).snapshots := by
  have hwithstands : Restoration.Withstands (r.snapshots ≤ ·.snapshots) :=
    ⟨⟨fun _ _ h => h, fun _ _ h => h⟩, fun _ _ _ _ h => h⟩
  exact hwithstands.restoreAll a (Nat.le_refl _) _

theorem snapshots_le_act (action : Action) : r.snapshots ≤ (r.act action).1.snapshots := by
  cases action with
  | compareIterators first second same =>
    simp only [act]
    split
    · exact r.snapshots_le_compareIterators _ _ _ _ _
    · exact Nat.le_refl _
  | create slot kind given logger mode =>
    simp only [act]
    split
    · exact r.snapshots_le_create _ _ _ _ _
    · exact Nat.le_refl _
  | copy slot source =>
    simp only [act]
    split
    · exact r.snapshots_le_copy _ _ _
    · exact Nat.le_refl _
  | assign target source =>
    simp only [act]
    split
    · split
      · exact r.snapshots_le_assign _ _ _
      · exact Nat.le_refl _
    · exact Nat.le_refl _
  | call slot call mode =>
    simp only [act]
    split
    · split
      · exact r.snapshots_le_call _ _ _ _
      · exact Nat.le_refl _
    · exact Nat.le_refl _
  | roundTrip saved restored =>
    simp only [act]
    split
    · exact r.snapshots_le_restore _ _
    · exact Nat.le_refl _
  | swap a b | ask slot query =>
    simp only [act]
    split
    · split <;> exact Nat.le_refl _
    · exact Nat.le_refl _
  | setDefaultVerbosity severity reset | makeItem label column => exact Nat.le_refl _
  | freeze slot | view slot | drop slot | compare a b | setLogger slot | setVerbosity severity
  | setKey item | describe item =>
    simp only [act]
    split <;> exact Nat.le_refl _

end Registry

/-! ## Being the same -/

namespace Iterator

theorem same_iff {it that : Iterator} : it.same that ↔ it.atEnd ∧ that.atEnd ∨
    ¬ it.atEnd ∧ ¬ that.atEnd ∧
      it.snapshot.map (·.serial) = that.snapshot.map (·.serial) ∧ it.index = that.index := by
  unfold same
  cases it.atEnd <;> cases that.atEnd <;> simp

theorem same_equivalence : Equivalence fun it that : Iterator => it.same that where
  refl it := by
    rw [same_iff]
    cases it.atEnd <;> simp
  symm {it that} h := by
    rw [same_iff] at h ⊢
    obtain ⟨h₁, h₂⟩ | ⟨h₁, h₂, hserial, hindex⟩ := h
    · exact .inl ⟨h₂, h₁⟩
    · exact .inr ⟨h₂, h₁, hserial.symm, hindex.symm⟩
  trans {it that other} h k := by
    rw [same_iff] at h k ⊢
    obtain ⟨h₁, h₂⟩ | ⟨h₁, h₂, hserial, hindex⟩ := h
    · obtain ⟨-, k₂⟩ | ⟨k₁, -⟩ := k
      · exact .inl ⟨h₁, k₂⟩
      · exact absurd h₂ k₁
    · obtain ⟨k₁, -⟩ | ⟨-, k₂, kserial, kindex⟩ := k
      · exact absurd k₁ h₂
      · exact .inr ⟨h₁, k₂, hserial.trans kserial, hindex.trans kindex⟩

end Iterator

/-! ## Where an iterator stands -/

variable {taken : List (Option Snapshot)} {h a b : Hand}

/-- The snapshot that was taken for an iterator, if any. -/
def Hand.snapshot (taken : List (Option Snapshot)) (h : Hand) : Option Snapshot :=
  (h.origin.bind (taken[·]?)).join

/-- An iterator stands in the snapshot that its call has taken, as far on as it has gone. -/
structure Hand.Tracks (taken : List (Option Snapshot)) (h : Hand) : Prop where
  iterator : h.iterator = ⟨h.snapshot taken, h.steps⟩
  origin : ∀ n ∈ h.origin, n < taken.length
  steps : ∀ s ∈ h.snapshot taken, h.steps ≤ s.items.length

namespace Hand

theorem snapshot_eq_some {s : Snapshot} :
    h.snapshot taken = some s ↔ ∃ n, h.origin = some n ∧ taken[n]? = some (some s) := by
  rw [snapshot, Option.join_eq_some_iff, Option.bind_eq_some_iff]

theorem snapshot_mem {s : Snapshot} (hs : h.snapshot taken = some s) : some s ∈ taken := by
  obtain ⟨n, -, hn⟩ := snapshot_eq_some.mp hs
  exact List.mem_of_getElem? hn

theorem size_eq : h.size (taken.map fun s => s.elim [] (·.items)) =
    (h.snapshot taken).elim 0 (·.items.length) := by
  unfold size snapshot
  cases h.origin with
  | none => rfl
  | some n =>
    rw [Option.bind_some, Option.bind_some, List.getElem?_map]
    obtain _ | _ | s := taken[n]? <;> rfl

theorem Tracks.append (ht : h.Tracks taken) (s : Option Snapshot) : h.Tracks (taken ++ [s]) := by
  have hsnapshot : h.snapshot (taken ++ [s]) = h.snapshot taken := by
    unfold snapshot
    cases ho : h.origin with
    | none => rfl
    | some n => rw [Option.bind_some, Option.bind_some, List.getElem?_append_left (ht.origin n ho)]
  refine ⟨hsnapshot ▸ ht.iterator, fun n hn => ?_, hsnapshot ▸ ht.steps⟩
  rw [List.length_append]
  exact Nat.lt_add_right _ (ht.origin n hn)

end Hand

/-- The snapshots that were taken at each call, if there was anything to go over. -/
structure Recorded (r : Registry) (calls : List (List ItemId)) (hands : List Hand)
    (taken : List (Option Snapshot)) : Prop where
  calls : taken.map (fun s => s.elim [] (·.items)) = calls
  filled : ∀ s, some s ∈ taken → s.items ≠ []
  serial_lt : ∀ s, some s ∈ taken → s.serial < r.snapshots
  apart : taken.Pairwise fun x y => ∀ s ∈ x, ∀ t ∈ y, s.serial ≠ t.serial
  tracks : ∀ h ∈ hands, h.Tracks taken

theorem begin_spec {c : Collection} (hc : (r.contents c).Coherent) :
    (r.begin c).1 = ⟨(r.begin c).1.snapshot, 0⟩ ∧
      (r.begin c).1.snapshot.elim [] (·.items) = (r.contents c).items ∧
      ∀ s ∈ (r.begin c).1.snapshot,
        s.items ≠ [] ∧ s.serial = r.snapshots ∧ s.serial < (r.begin c).2.snapshots := by
  obtain ⟨hitems, hbegin⟩ | ⟨hitems, hbegin⟩ := Registry.begin_cases hc
  · rw [hbegin, hitems]
    exact ⟨rfl, rfl, nofun⟩
  · rw [hbegin]
    refine ⟨rfl, rfl, fun s hs => ?_⟩
    obtain rfl := Option.some.inj hs
    exact ⟨hitems, rfl, Nat.lt_succ_self _⟩

namespace Recorded

theorem act (hr : Recorded r calls hands taken) (action : Action) :
    Recorded (r.act action).1 calls hands taken where
  calls := hr.calls
  filled := hr.filled
  serial_lt s hs := Nat.lt_of_lt_of_le (hr.serial_lt s hs) (r.snapshots_le_act action)
  apart := hr.apart
  tracks := hr.tracks

theorem hand (hr : Recorded r calls hands taken) (hh : h.Tracks taken) :
    Recorded r calls (h :: hands) taken :=
  ⟨hr.calls, hr.filled, hr.serial_lt, hr.apart, List.forall_mem_cons.mpr ⟨hh, hr.tracks⟩⟩

theorem begin (hr : Recorded r calls hands taken) {c : Collection}
    (hc : (r.contents c).Coherent) :
    Recorded (r.begin c).2 (calls ++ [(r.contents c).items])
      (⟨(r.begin c).1, some calls.length, 0⟩ :: hands) (taken ++ [(r.begin c).1.snapshot]) := by
  obtain ⟨hit, hitems, hnew⟩ := begin_spec hc
  have hlast : (taken ++ [(r.begin c).1.snapshot])[calls.length]? = some (r.begin c).1.snapshot := by
    rw [← hr.calls, List.length_map, List.getElem?_concat_length]
  have hmem : ∀ s, some s ∈ taken ++ [(r.begin c).1.snapshot] →
      some s ∈ taken ∨ (r.begin c).1.snapshot = some s := by
    intro s hs
    simpa [eq_comm] using hs
  refine ⟨?_, fun s hs => ?_, fun s hs => ?_, ?_, List.forall_mem_cons.mpr ⟨?_, ?_⟩⟩
  · rw [List.map_append, hr.calls, ← hitems]
    rfl
  · exact (hmem s hs).elim (hr.filled s) fun hs => (hnew s hs).1
  · rcases hmem s hs with hs | hs
    · exact Nat.lt_of_lt_of_le (hr.serial_lt s hs) (r.snapshots_le_begin c)
    · exact (hnew s hs).2.2
  · refine List.pairwise_append.mpr ⟨hr.apart, List.pairwise_singleton _ _, fun x hx y hy => ?_⟩
    obtain rfl := List.mem_singleton.mp hy
    intro s hs t ht
    rw [(hnew t ht).2.1]
    exact Nat.ne_of_lt (hr.serial_lt s (hs ▸ hx))
  · have hsnapshot : Hand.snapshot (taken ++ [(r.begin c).1.snapshot])
        ⟨(r.begin c).1, some calls.length, 0⟩ = (r.begin c).1.snapshot := by
      rw [Hand.snapshot, Option.bind_some, hlast, Option.join_some]
    refine ⟨?_, fun n hn => ?_, fun _ _ => Nat.zero_le _⟩
    · rw [hsnapshot]
      exact hit
    · obtain rfl := Option.some.inj hn
      exact (List.getElem?_eq_some_iff.mp hlast).1
  · exact fun h hh => (hr.tracks h hh).append _

theorem past_iff (hr : Recorded r calls hands taken) (hh : h ∈ hands) :
    h.Past calls ↔ h.iterator.atEnd := by
  rw [Hand.Past, ← hr.calls, Hand.size_eq, (hr.tracks h hh).iterator]
  cases hs : h.snapshot taken with
  | none => simp [Iterator.atEnd]
  | some s => simp [Iterator.atEnd, hr.filled s (Hand.snapshot_mem hs)]

theorem next (hr : Recorded r calls hands taken) (hh : h ∈ hands)
    (hsteps : h.steps < h.size calls ∨ h.size calls = 0) : h.next.Tracks taken := by
  have ht := hr.tracks h hh
  refine ⟨?_, ht.origin, fun s hs => ?_⟩
  · rw [Hand.next, ht.iterator]
    rfl
  · have hs' : h.snapshot taken = some s := hs
    rw [← hr.calls, Hand.size_eq, hs'] at hsteps
    exact hsteps.resolve_right fun hzero =>
      hr.filled s (Hand.snapshot_mem hs') (List.length_eq_zero_iff.mp hzero)

theorem index_eq (hr : Recorded r calls hands taken) {m n : Nat} {s t : Snapshot}
    (hs : taken[m]? = some (some s)) (ht : taken[n]? = some (some t))
    (hserial : s.serial = t.serial) : m = n := by
  obtain ⟨hm, hs⟩ := List.getElem?_eq_some_iff.mp hs
  obtain ⟨hn, ht⟩ := List.getElem?_eq_some_iff.mp ht
  have hapart := List.pairwise_iff_getElem.mp hr.apart
  rcases Nat.lt_trichotomy m n with hlt | heq | hgt
  · exact absurd hserial (hapart m n hm hn hlt s hs t ht)
  · exact heq
  · exact absurd hserial.symm (hapart n m hn hm hgt t ht s hs)

theorem iterator_eq (hr : Recorded r calls hands taken) (ha : a ∈ hands) (hb : b ∈ hands)
    (horigin : a.origin = b.origin) (hsteps : a.steps = b.steps) : a.iterator = b.iterator := by
  rw [(hr.tracks a ha).iterator, (hr.tracks b hb).iterator, Hand.snapshot, Hand.snapshot, horigin,
    hsteps]

/-- Away from the end only iterators at one place of one snapshot are the same. -/
theorem origin_of_same (hr : Recorded r calls hands taken) (ha : a ∈ hands) (hb : b ∈ hands)
    (hsame : a.iterator.same b.iterator) (hend : ¬ a.iterator.atEnd) :
    ∃ n, a.origin = some n ∧ b.origin = some n ∧ a.steps = b.steps := by
  rw [Iterator.same_iff] at hsame
  obtain ⟨-, hend', hserial, hindex⟩ := hsame.resolve_left fun h => hend h.1
  rw [(hr.tracks a ha).iterator] at hend hserial hindex
  rw [(hr.tracks b hb).iterator] at hend' hserial hindex
  cases hs : a.snapshot taken with
  | none => simp [hs, Iterator.atEnd] at hend
  | some s =>
    cases ht : b.snapshot taken with
    | none => simp [ht, Iterator.atEnd] at hend'
    | some t =>
      rw [hs, ht] at hserial
      obtain ⟨m, hm, hs⟩ := Hand.snapshot_eq_some.mp hs
      obtain ⟨n, hn, ht⟩ := Hand.snapshot_eq_some.mp ht
      obtain rfl := hr.index_eq hs ht (Option.some.inj hserial)
      exact ⟨m, hm, hn, hindex⟩

theorem same_iff_past_or_origin (hr : Recorded r calls hands taken) (ha : a ∈ hands)
    (hb : b ∈ hands) : a.iterator.same b.iterator ↔ a.Past calls ∧ b.Past calls ∨
      ∃ n, a.origin = some n ∧ b.origin = some n ∧ a.steps = b.steps := by
  rw [hr.past_iff ha, hr.past_iff hb]
  refine ⟨fun hsame => ?_, ?_⟩
  · by_cases hend : a.iterator.atEnd
    · rw [Iterator.same_iff] at hsame
      exact .inl (hsame.resolve_right fun h => h.1 hend)
    · exact .inr (hr.origin_of_same ha hb hsame hend)
  · rintro (hend | ⟨n, hm, hn, hsteps⟩)
    · exact Iterator.same_iff.mpr (.inl hend)
    · rw [hr.iterator_eq ha hb (hm.trans hn.symm) hsteps]
      exact Iterator.same_equivalence.refl _

theorem exists_item (hr : Recorded r calls hands taken) (hh : h ∈ hands)
    (hend : ¬ h.iterator.atEnd) : ∃ i, h.iterator.item? = some i := by
  have ht := hr.tracks h hh
  rw [ht.iterator] at hend ⊢
  cases hs : h.snapshot taken with
  | none => simp [hs, Iterator.atEnd] at hend
  | some s =>
    have hne : h.steps ≠ s.items.length := by simpa [hs, Iterator.atEnd] using hend
    exact ⟨_, List.getElem?_eq_getElem (Nat.lt_of_le_of_ne (ht.steps s hs) hne)⟩

end Recorded

/-- Whatever is done in between, each iterator stands in the snapshot that its call has taken. -/
theorem Handling.recorded (run : Handling r calls hands) :
    ∃ taken, Recorded r calls hands taken := by
  induction run with
  | empty config => exact ⟨[], rfl, nofun, nofun, .nil, nofun⟩
  | act action _ ih =>
    obtain ⟨taken, hr⟩ := ih
    exact ⟨taken, hr.act action⟩
  | begin hc run ih =>
    obtain ⟨taken, hr⟩ := ih
    exact ⟨_, hr.begin (run.reachable.coherent hc)⟩
  | past _ ih =>
    obtain ⟨taken, hr⟩ := ih
    exact ⟨taken, hr.hand ⟨rfl, nofun, nofun⟩⟩
  | next hh hsteps _ ih =>
    obtain ⟨taken, hr⟩ := ih
    exact ⟨taken, hr.hand (hr.next hh hsteps)⟩

/-! ## Comparing -/

/--
Being the same is an equivalence of iterators, whatever has become of their collections: an iterator is
the same as the end just if it has gone as many steps as there were items, and two are the same just if
both have, or if they stem from one call of `begin` and have gone equally far. Where they have not, they
yield the same item and stay the same when both take a step.
-/
theorem iterators_same_iff (run : Handling r calls hands) :
    (Equivalence fun it that : Iterator => it.same that) ∧
    (∀ a ∈ hands, (a.iterator.same .past ↔ a.Past calls) ∧
      (a.steps ≤ a.size calls → (a.iterator.same .past ↔ a.steps = a.size calls))) ∧
    ∀ a ∈ hands, ∀ b ∈ hands,
      (a.iterator.same b.iterator ↔ a.Past calls ∧ b.Past calls ∨
        ∃ n, a.origin = some n ∧ b.origin = some n ∧ a.steps = b.steps) ∧
      (a.iterator.same b.iterator → ¬ a.iterator.same .past →
        (∃ i, a.iterator.item? = some i ∧ b.iterator.item? = some i) ∧
        a.iterator.next.same b.iterator.next) := by
  obtain ⟨taken, hr⟩ := run.recorded
  refine ⟨Iterator.same_equivalence, fun a ha => ?_, fun a ha b hb => ⟨?_, fun hsame hpast => ?_⟩⟩
  · have hpast : a.iterator.same .past ↔ a.Past calls := by
      rw [Iterator.same_past_eq, hr.past_iff ha]
    refine ⟨hpast, fun hle => hpast.trans ⟨?_, .inl⟩⟩
    rintro (hsteps | hsize)
    · exact hsteps
    · omega
  · exact hr.same_iff_past_or_origin ha hb
  · rw [Iterator.same_past_eq] at hpast
    obtain ⟨n, hm, hn, hsteps⟩ := hr.origin_of_same ha hb hsame hpast
    obtain ⟨i, hi⟩ := hr.exists_item ha hpast
    rw [← hr.iterator_eq ha hb (hm.trans hn.symm) hsteps]
    exact ⟨⟨i, hi, hi⟩, Iterator.same_equivalence.refl _⟩

/-- Two calls on one collection and one on an empty one. In between the collection grows; then it is
dropped, and only now the first iterator goes to the end, and a copy of it takes its first step. -/
theorem iterators_same_iff_of_dropped : ∃ r calls hands, Handling r calls hands ∧
    r.collection? "l" = none ∧
    ∃ a ∈ hands, ∃ b ∈ hands, ∃ c ∈ hands, ∃ d ∈ hands, ∃ e ∈ hands,
      (a.origin, a.steps) = (some 0, 2) ∧ (b.origin, b.steps) = (some 1, 0) ∧
      (c.origin, c.steps) = (some 0, 1) ∧ (d.origin, d.steps) = (some 0, 1) ∧
      (e.origin, e.steps) = (some 2, 1) ∧
      a.iterator.same .past ∧ a.iterator.same b.iterator ∧ ¬ c.iterator.same e.iterator ∧
      (∃ i, c.iterator.item? = some i ∧ d.iterator.item? = some i) ∧
      c.iterator.next.same d.iterator.next := by
  have start := Handling.empty (.ofDefault .info false)
    |>.act (.makeItem "x" (.named "x"))
    |>.act (.makeItem "y" (.named "y"))
    |>.act (.create "l" .lenient [("x", some (.made "x")), ("y", some (.made "y"))] none .raising)
    |>.act (.create "e" .lenient [] none .raising)
  have first := start.begin (c := ⟨.lenient, ⟨⟨0⟩, ⟨0⟩, ⟨0⟩⟩, ⟨none, .collection⟩⟩)
    (show Registry.collection? _ "l" = _ by decide)
  have second := first.begin (c := ⟨.lenient, ⟨⟨1⟩, ⟨1⟩, ⟨1⟩⟩, ⟨none, .collection⟩⟩)
    (show Registry.collection? _ "e" = _ by decide)
  have grown := second.next (.tail _ (.head _)) (by decide)
    |>.act (.call "l" (.extend [some (.made "x"), some (.made "y")]) .raising)
  have third := grown.begin (c := ⟨.lenient, ⟨⟨0⟩, ⟨0⟩, ⟨0⟩⟩, ⟨none, .collection⟩⟩)
    (show Registry.collection? _ "l" = _ by decide)
  have run := third.next (.head _) (by decide)
    |>.act (.drop "l")
    |>.next (.tail _ (.tail _ (.head _))) (by decide)
    |>.next (.tail _ (.tail _ (.tail _ (.tail _ (.tail _ (.head _)))))) (by decide)
  obtain ⟨-, hends, hpairs⟩ := iterators_same_iff run
  have hpast := (hends _ (.tail _ (.tail _ (.tail _ (.tail _ (.head _)))))).1
  have hcopy := hpairs _ (.tail _ (.tail _ (.tail _ (.tail _ (.head _))))) _ (.head _)
  have hother := hpairs _ (.tail _ (.tail _ (.tail _ (.tail _ (.head _))))) _
    (.tail _ (.tail _ (.head _)))
  have hinside := hpast.not.mpr (by decide)
  obtain ⟨hitem, hnext⟩ := hcopy.2 (hcopy.1.mpr (.inr ⟨0, rfl, rfl, rfl⟩)) hinside
  refine ⟨_, _, _, run, by decide, _, .tail _ (.head _), _,
    .tail _ (.tail _ (.tail _ (.tail _ (.tail _ (.head _))))), _,
    .tail _ (.tail _ (.tail _ (.tail _ (.head _)))), _, .head _, _, .tail _ (.tail _ (.head _)),
    rfl, rfl, rfl, rfl, rfl, ?_, ?_, hother.1.not.mpr ?_, hitem, hnext⟩
  · exact (hends _ (.tail _ (.head _))).1.mpr (by decide)
  · exact (hpairs _ (.tail _ (.head _)) _
      (.tail _ (.tail _ (.tail _ (.tail _ (.tail _ (.head _))))))).1.mpr (.inl (by decide))
  · rintro (⟨hend, -⟩ | ⟨n, hm, hn, -⟩)
    · exact hinside (hpast.mpr hend)
    · exact absurd (hm.trans hn.symm) (by decide)

end KeyedColumns
