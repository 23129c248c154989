import KeyedColumns.Registry.Request

/-!
# Runs

A run takes a registry through actions and through the snapshots that iterations take. Answering
requests is a run, however deep the requests inside iterations go, so what every step of a run keeps
is kept by every request.
-/

namespace KeyedColumns

/-- The registry `s` comes about from `r` by actions that are allowed when they are carried out. -/
inductive Run (allowed : Registry → Action → Prop) (r : Registry) : Registry → Prop where
  | refl : Run allowed r r
  | act {s : Registry} (action : Action) (run : Run allowed r s) (h : allowed s action) :
    Run allowed r (s.act action).1
  | begin {s : Registry} (c : Collection) (run : Run allowed r s) : Run allowed r (s.begin c).2

namespace Run

variable {allowed : Registry → Action → Prop}

theorem trans {r s t : Registry} (h : Run allowed r s) (k : Run allowed s t) : Run allowed r t := by
  induction k with
  | refl => exact h
  | act action _ ha ih => exact .act action ih ha
  | begin c _ ih => exact .begin c ih

theorem mono {wider : Registry → Action → Prop} (hw : ∀ r a, allowed r a → wider r a)
    {r s : Registry} (h : Run allowed r s) : Run wider r s := by
  induction h with
  | refl => exact .refl
  | act action _ ha ih => exact .act action ih (hw _ _ ha)
  | begin c _ ih => exact .begin c ih

end Run

def anything (_ : Registry) (_ : Action) : Prop := True

/-- The registries that come about from an empty one. -/
def Reachable (r : Registry) : Prop := ∃ config, Run anything (Registry.empty config) r

theorem Reachable.act {r : Registry} (h : Reachable r) (action : Action) :
    Reachable (r.act action).1 := by
  obtain ⟨config, hrun⟩ := h
  exact ⟨config, hrun.act action trivial⟩

theorem Reachable.begin {r : Registry} (h : Reachable r) (c : Collection) :
    Reachable (r.begin c).2 := by
  obtain ⟨config, hrun⟩ := h
  exact ⟨config, hrun.begin c⟩

namespace Registry

theorem run_walk {body : Nat → Registry → Registry × List Answer}
    (hb : ∀ n r, Run anything r (body n r).1) (fuel : Nat) (it : Iterator) (r : Registry) :
    Run anything r (walk body fuel it r).registry := by
  induction fuel generalizing it r with
  | zero => exact .refl
  | succ n ih =>
    unfold walk
    split
    · exact .refl
    · exact (hb _ _).trans (ih _ _)

mutual

theorem run_answer : (q : Request) → (r : Registry) → Run anything r (answer q r).1
  | .act action, r => by
    rw [answer]
    exact .act action .refl trivial
  | .iterate slot body, r => by
    rw [answer]
    split
    · next c _ => exact (Run.begin c .refl).trans (run_walk (run_bodyAt body) _ _ _)
    · exact .refl
  | .showing q slot, r => by
    rw [answer]
    exact run_answer q r

theorem run_answerAll : (qs : List Request) → (r : Registry) → Run anything r (answerAll qs r).1
  | [], r => by
    rw [answerAll]
    exact .refl
  | q :: rest, r => by
    rw [answerAll]
    exact (run_answer q r).trans (run_answerAll rest _)

theorem run_bodyAt : (body : List (Nat × List Request)) → (n : Nat) → (r : Registry) →
    Run anything r (bodyAt body n r).1
  | [], n, r => by
    rw [bodyAt]
    exact .refl
  | p :: rest, n, r => by
    rw [bodyAt]
    split
    · exact run_answerPart p r
    · exact run_bodyAt rest n r

theorem run_answerPart : (p : Nat × List Request) → (r : Registry) →
    Run anything r (answerPart p r).1
  | (_, requests), r => by
    rw [answerPart]
    exact run_answerAll requests r

end

/-- Whatever is asked of a reachable registry, what comes of it is reachable. -/
theorem reachable_answerAll {r : Registry} (h : Reachable r) (qs : List Request) :
    Reachable (answerAll qs r).1 := by
  obtain ⟨config, hr⟩ := h
  exact ⟨config, hr.trans (run_answerAll qs r)⟩

end Registry

end KeyedColumns
