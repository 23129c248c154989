import KeyedColumns.Proofs.Invariants

/-!
# What an iteration visits

An iteration goes over the items as they are when it begins, whatever its body does to the collection.
-/

namespace KeyedColumns

open Registry (answer bodyAt walk)

variable {body : Nat → Registry → Registry × List Answer}

/-- A loop from an iterator to the end. No count bounds it, and a turn needs an item to visit. -/
inductive Loop (body : Nat → Registry → Registry × List Answer) :
    Iterator → Registry → List (ItemId × Nat) → Registry → Prop where
  | ended {it : Iterator} {r : Registry} (h : it.same .past) : Loop body it r [] r
  | turn {it : Iterator} {r r' : Registry} {i : ItemId} {visited : List (ItemId × Nat)}
    (h : ¬ it.same .past) (hi : it.item? = some i)
    (rest : Loop body it.next (body it.index r).1 visited r') :
    Loop body it r ((i, it.index) :: visited) r'

theorem Loop.unique {it : Iterator} {r r₁ r₂ : Registry} {v₁ v₂ : List (ItemId × Nat)}
    (h₁ : Loop body it r v₁ r₁) (h₂ : Loop body it r v₂ r₂) : v₁ = v₂ ∧ r₁ = r₂ := by
  induction h₁ generalizing v₂ with
  | ended h =>
    cases h₂ with
    | ended => exact ⟨rfl, rfl⟩
    | turn h' => exact absurd h h'
  | turn h hi _ ih =>
    cases h₂ with
    | ended h' => exact absurd h' h
    | turn _ hi' rest' =>
      rw [hi] at hi'
      cases hi'
      obtain ⟨rfl, rfl⟩ := ih rest'
      exact ⟨rfl, rfl⟩

/-! ## A walk over a snapshot -/

theorem Iterator.same_past_eq (it : Iterator) : it.same .past = it.atEnd := by
  simp [same, past, atEnd]

theorem Iterator.goes_on {s : Snapshot} {n : Nat} (h : n < s.items.length) :
    ¬ same ⟨some s, n⟩ .past := by
  rw [same_past_eq]
  simp [atEnd]
  omega

theorem loop_walk (body : Nat → Registry → Registry × List Answer) (s : Snapshot)
    {fuel n : Nat} (h : n + fuel = s.items.length) (r : Registry) :
    Loop body ⟨some s, n⟩ r (s.items.zipIdx.drop n) (walk body fuel ⟨some s, n⟩ r).registry ∧
      (walk body fuel ⟨some s, n⟩ r).visited = s.items.drop n := by
  -- There is a step for each item left, so the steps run out just where the snapshot ends.
  induction fuel generalizing n r with
  | zero =>
    have hend : Iterator.same ⟨some s, n⟩ .past := by
      rw [Iterator.same_past_eq]
      simp [Iterator.atEnd]
      omega
    rw [List.drop_eq_nil_of_le (by simp; omega), List.drop_eq_nil_of_le (by omega)]
    exact ⟨.ended hend, rfl⟩
  | succ fuel ih =>
    have hlt : n < s.items.length := by omega
    have hgoes := Iterator.goes_on hlt
    have hitem : Iterator.item? ⟨some s, n⟩ = some s.items[n] := by simp [Iterator.item?, hlt]
    obtain ⟨hloop, hvisited⟩ := ih (n := n + 1) (by omega) (body n r).1
    rw [List.drop_eq_getElem_cons (by simpa using hlt), List.getElem_zipIdx, Nat.zero_add,
      List.drop_eq_getElem_cons hlt]
    unfold walk
    simp only [hgoes, if_false, hitem, Bool.false_eq_true]
    exact ⟨.turn hgoes hitem hloop, congrArg (s.items[n] :: ·) hvisited⟩

/-! ## Any iteration -/

theorem Reachable.coherent {r : Registry} (h : Reachable r) {slot : String} {c : Collection}
    (hc : r.collection? slot = some c) : (r.contents c).Coherent := by
  obtain ⟨kind, hs⟩ := exists_sound h slot c hc
  exact hs.toCoherent

theorem Registry.begin_cases {r : Registry} {c : Collection} (hc : (r.contents c).Coherent) :
    (r.contents c).items = [] ∧ r.begin c = (.past, r) ∨
      (r.contents c).items ≠ [] ∧ r.begin c =
        (.first ⟨r.snapshots, (r.contents c).items⟩, { r with snapshots := r.snapshots + 1 }) := by
  have hitems : (r.contents c).items = [] ↔ (r.contents c).entries = [] := by
    rw [hc.items_eq, Contents.members, List.map_eq_nil_iff]
  unfold Registry.begin
  by_cases he : (r.contents c).entries = []
  · exact .inl ⟨hitems.mpr he, by simp [he]⟩
  · exact .inr ⟨fun h => he (hitems.mp h), by simp [he]⟩

theorem loop_iterate (body : Nat → Registry → Registry × List Answer) {r : Registry}
    {c : Collection} (hc : (r.contents c).Coherent) :
    Loop body (r.begin c).1 (r.begin c).2 (r.contents c).items.zipIdx (r.iterate c body).1 ∧
      (r.iterate c body).2.outcome = .visited (r.contents c).items := by
  unfold Registry.iterate
  obtain ⟨hitems, hbegin⟩ | ⟨-, hbegin⟩ := Registry.begin_cases hc
  · rw [hbegin, hitems]
    exact ⟨.ended rfl, rfl⟩
  · rw [hbegin]
    obtain ⟨hloop, hvisited⟩ := loop_walk body ⟨r.snapshots, (r.contents c).items⟩
      (Nat.zero_add _) { r with snapshots := r.snapshots + 1 }
    rw [List.drop_zero] at hloop hvisited
    exact ⟨hloop, congrArg Outcome.visited hvisited⟩

/--
Whatever requests are made on the way, an iteration ends, and it visits the items that the collection
had when it began, each position once and in order.
-/
theorem visits_snapshot {r : Registry} (h : Reachable r) {slot : String} {c : Collection}
    (hc : r.collection? slot = some c) (body : List (Nat × List Request)) :
    (answer (.iterate slot body) r).2.outcome = .visited (r.contents c).items ∧
      ∀ visited r', Loop (bodyAt body) (r.begin c).1 (r.begin c).2 visited r' ↔
        visited = (r.contents c).items.zipIdx ∧ r' = (answer (.iterate slot body) r).1 := by
  have hiterate : answer (.iterate slot body) r = r.iterate c (bodyAt body) := by
    rw [answer, hc]
  obtain ⟨hloop, hvisited⟩ := loop_iterate (bodyAt body) (h.coherent hc)
  rw [hiterate]
  refine ⟨hvisited, fun visited r' => ⟨fun h' => h'.unique hloop, ?_⟩⟩
  rintro ⟨rfl, rfl⟩
  exact hloop

/-- The collection grows, is gone over again and is loaded into itself; then it is dropped. -/
theorem visits_snapshot_of_dropped : ∃ r c body, Reachable r ∧ r.collection? "l" = some c ∧
    (answer (.iterate "l" body) r).2.outcome = .visited [.made "a", .made "b"] ∧
    (answer (.iterate "l" body) r).1.collection? "l" = none ∧
    Loop (bodyAt body) (r.begin c).1 (r.begin c).2 [(.made "a", 0), (.made "b", 1)]
      (answer (.iterate "l" body) r).1 := by
  have h : Reachable _ := ⟨.ofDefault .info false, Run.refl
    |>.act (.makeItem "a" (.named "a")) trivial
    |>.act (.makeItem "b" (.named "b")) trivial
    |>.act (.create "l" .lenient [("p", some (.made "a")), ("p", some (.made "b"))] none .raising)
      trivial⟩
  have hvisits := fun c (hc : Registry.collection? _ "l" = some c) => visits_snapshot h hc
    [(0, [.act (.call "l" (.extend [some (.made "a"), some (.made "b")]) .raising),
      .act (.setKey (.made "b") "z"), .iterate "l" [], .act (.roundTrip ["l"] ["l"])]),
      (1, [.act (.drop "l")])]
  refine ⟨_, ⟨.lenient, ⟨⟨0⟩, ⟨0⟩, ⟨0⟩⟩, ⟨none, .collection⟩⟩, _, h, ?held, (hvisits _ ?held).1,
    ?dropped, ((hvisits _ ?held).2 _ _).mpr ⟨?visited, rfl⟩⟩
  case held => decide
  case dropped => decide
  case visited => decide

end KeyedColumns
