import KeyedColumns.Proofs.Contexts
import KeyedColumns.Proofs.Relogging

/-!
# Logging and the rest

Loggers and verbosities have no say in anything but the log: runs that are the same without any logging
are the same but for the log. And a lower verbosity only drops records: what is logged under it is what
is logged under a higher one, less what is more verbose.
-/

namespace KeyedColumns

open Log (Component Config OwnComponent Severity)

namespace Relogging

/-- Without any loggers and at no verbosity. -/
def silent : Relogging := ⟨fun _ => none, rfl, .nothing, false⟩

/-- With the loggers that there are, and at one verbosity for everything. -/
def under (v : Severity) (calendarStamps : Bool) : Relogging := ⟨id, rfl, v, calendarStamps⟩

end Relogging

variable {v s : Severity} {calendarStamps : Bool} {config : Config}

/-! ## Without any logging -/

theorem Notice.severity_cases (n : Notice) :
    n.severity = .warning ∨ n.severity = .debug ∨ n.severity = .trace := by
  cases n <;> simp [severity]

theorem Relogging.not_keeps_silent (x : LogRecord) : ¬ silent.keeps x := by
  unfold keeps
  rcases x.notice.severity_cases with h | h | h <;>
    · rw [h]
      decide

theorem Relogging.serves_silent : silent.Serves (fun _ => True) (fun _ => True) where
  fits := fun _ _ _ _ => (List.filter_eq_nil_iff.mpr fun x _ => not_keeps_silent x).symm
  act := fun _ _ _ _ => trivial
  begin := fun _ _ _ => trivial

/-! ## One verbosity -/

namespace Log.Config

theorem limit_ofDefault (v : Severity) (calendarStamps : Bool) (component : Component) :
    (ofDefault v calendarStamps).limit component = v.kept := by
  unfold limit
  cases component.own? <;> rfl

/-- No verbosity of the configuration is lower than another. -/
structure AtLeast (config : Config) (v : Severity) : Prop where
  usual : v.kept ≤ config.verbosity
  own : ∀ o level, config.verbosityOf o = some level → v.kept ≤ level

namespace AtLeast

theorem limit (h : config.AtLeast v) (component : Component) :
    v.kept ≤ config.limit component := by
  unfold Config.limit
  split
  · exact h.usual
  · next o _ =>
    cases hl : config.verbosityOf o with
    | none => exact h.usual
    | some level => exact h.own o level hl

theorem ofDefault (h : v.kept ≤ s.kept) : (ofDefault s calendarStamps).AtLeast v :=
  ⟨h, nofun⟩

theorem setDefault (h : config.AtLeast v) (hs : v.kept ≤ s.kept) (reset : Bool) :
    (config.setDefault s reset).AtLeast v := by
  refine ⟨hs, fun o level hl => ?_⟩
  cases reset with
  | true => cases hl
  | false => exact h.own o level hl

theorem setComponent (h : config.AtLeast v) {n : UInt32}
    (hs : (OwnComponent.ofNumber? n).isSome → v.kept ≤ s.kept) :
    ((config.setComponent? s n).getD config).AtLeast v := by
  unfold setComponent?
  cases hn : OwnComponent.ofNumber? n with
  | none => exact h
  | some o =>
    rw [hn] at hs
    refine ⟨h.usual, fun p level hl => ?_⟩
    simp only [Option.getD_some, asSet] at hl
    split at hl
    · split at hl <;> cases hl
      exact hs rfl
    · exact h.own p level hl

end AtLeast

end Log.Config

/-- The action sets no verbosity lower than another. -/
def Action.AtLeast (v : Severity) : Action → Prop
  | setDefaultVerbosity severity _ => v.kept ≤ severity.kept
  | setVerbosity severity component =>
    (OwnComponent.ofNumber? component).isSome → v.kept ≤ severity.kept
  | _ => True

theorem Action.AtLeast.configure (h : config.AtLeast v) {action : Action}
    (ha : action.AtLeast v) : (action.configure config).AtLeast v := by
  cases action with
  | setDefaultVerbosity severity reset => exact h.setDefault ha reset
  | setVerbosity severity component => exact h.setComponent ha
  | _ => exact h

theorem Relogging.fits_under {r : Registry} (h : r.config.AtLeast v) :
    (under v calendarStamps).Fits r := by
  intro context notices
  have hpasses : ∀ n : Notice,
      (Config.ofDefault v calendarStamps).passes n.severity context.component =
        (decide (n.severity.kept ≤ v.kept) && r.config.passes n.severity context.component) := by
    intro n
    rw [Bool.eq_iff_iff, Bool.and_eq_true]
    simp only [Config.passes, Config.limit_ofDefault, decide_eq_true_eq, iff_self_and]
    exact fun hn => UInt8.le_trans hn (h.limit _)
  have hcontext : (under v calendarStamps).context context = context := rfl
  have hconfig : (r.relog (under v calendarStamps)).config = .ofDefault v calendarStamps := rfl
  unfold Registry.log
  rw [hcontext, hconfig]
  cases context.logger with
  | none => rfl
  | some logger =>
    simp only [hpasses, List.filter_map, List.filter_filter]
    rfl

theorem Relogging.serves_under (v : Severity) (calendarStamps : Bool) :
    (under v calendarStamps).Serves (fun r => ∃ config, r.Logging config ∧ config.AtLeast v)
      (Action.AtLeast v) where
  fits := fun _ ⟨_, hr, h⟩ => fits_under (hr.config ▸ h)
  act := fun _ action ⟨_, hr, h⟩ ha => ⟨_, hr.act action, ha.configure h⟩
  begin := fun _ c ⟨config, hr, h⟩ => ⟨config, hr.begin c, h⟩

/-! ## Logging and the rest -/

/--
Runs that are the same without any logging have the same answers and lead to the same registry, but for
loggers, verbosities and the log. Under a verbosity for everything, the log of each answer is that of the
same run under higher verbosities without what is more verbose, and all else is the same.
-/
theorem logging_inert :
    (∀ config config' qs qs',
      qs.map (Request.relog .silent) = qs'.map (Request.relog .silent) →
      (Registry.answerAll qs (.empty config)).1.relog .silent =
          (Registry.answerAll qs' (.empty config')).1.relog .silent ∧
        (Registry.answerAll qs (.empty config)).2.map (Answer.relog .silent) =
          (Registry.answerAll qs' (.empty config')).2.map (Answer.relog .silent)) ∧
    ∀ v v' calendarStamps qs, v.kept ≤ v'.kept → (∀ q ∈ qs, q.Every (Action.AtLeast v)) →
      Registry.answerAll (qs.map (Request.relog (.under v calendarStamps)))
          (.empty (.ofDefault v calendarStamps)) =
        ((Registry.answerAll qs (.empty (.ofDefault v' calendarStamps))).1.relog
            (.under v calendarStamps),
          (Registry.answerAll qs (.empty (.ofDefault v' calendarStamps))).2.map
            (Answer.relog (.under v calendarStamps))) := by
  constructor
  · intro config config' qs qs' hqs
    have hrun := fun c qs => (Registry.answerAll_relog Relogging.serves_silent qs (.empty c) trivial
      fun q _ => q.every_of_forall fun _ => trivial).1
    have hsame := hrun config qs
    rw [Request.relogAll_eq_map, hqs, ← Request.relogAll_eq_map] at hsame
    have hboth := hsame.symm.trans (hrun config' qs')
    exact ⟨congrArg Prod.fst hboth, congrArg Prod.snd hboth⟩
  · intro v v' calendarStamps qs hv hqs
    have hrun := Registry.answerAll_relog (Relogging.serves_under v calendarStamps) qs
      (.empty (.ofDefault v' calendarStamps)) ⟨_, ⟨rfl, nofun⟩, .ofDefault hv⟩ hqs
    rw [Request.relogAll_eq_map] at hrun
    exact hrun.1

/-- A lookup that fails, where everything is logged, where only warnings are, and without a logger. -/
theorem logging_inert_of_lookup : ∃ requests : Option Nat → Severity → List Request,
    (Registry.answerAll (requests (some 1) .data) (.empty (.ofDefault .data false))).2.map
        (Answer.relog .silent) =
      (Registry.answerAll (requests none .nothing) (.empty (.ofDefault .nothing true))).2.map
        (Answer.relog .silent) ∧
    Registry.answerAll (requests (some 1) .warning) (.empty (.ofDefault .warning false)) =
      ((Registry.answerAll (requests (some 1) .data) (.empty (.ofDefault .data false))).1.relog
          (.under .warning false),
        (Registry.answerAll (requests (some 1) .data) (.empty (.ofDefault .data false))).2.map
          (Answer.relog (.under .warning false))) ∧
    (Registry.answerAll (requests (some 1) .warning) (.empty (.ofDefault .warning false))).2.map
      (·.log.length) = [0, 0, 1] ∧
    (Registry.answerAll (requests (some 1) .data) (.empty (.ofDefault .data false))).2.map
      (·.log.length) = [1, 0, 2] := by
  refine ⟨fun logger v =>
    [.act (.create "d" .dedupe [] logger .raising), .act (.setDefaultVerbosity v true),
      .showing (.act (.call "d" (.lookupKey "k") .raising)) "d"], ?_, ?_, ?_, ?_⟩
  · exact (logging_inert.1 _ _ _ _ (by
      simp only [List.map_cons, List.map_nil, Request.relog, Action.relog]
      rfl)).2
  · have hdata : Severity.warning.kept ≤ Severity.data.kept := by decide
    have hunder := logging_inert.2 .warning .data false
      [.act (.create "d" .dedupe [] (some 1) .raising), .act (.setDefaultVerbosity .data true),
        .showing (.act (.call "d" (.lookupKey "k") .raising)) "d"] hdata (by
        simp only [List.forall_mem_cons]
        exact ⟨.act trivial, .act hdata, .showing (.act trivial), List.forall_mem_nil _⟩)
    rw [← hunder]
    simp only [List.map_cons, List.map_nil, Request.relog, Action.relog]
    rfl
  · rfl
  · rfl

end KeyedColumns
