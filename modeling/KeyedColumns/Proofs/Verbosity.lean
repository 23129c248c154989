import KeyedColumns.Log.Config
import Mathlib.Data.List.DropRight
import Mathlib.Data.List.Induction

/-!
# What passes after a history of settings

A configuration keeps one byte for each verbosity. What passes can be read off the settings that were
made: of those that count, the last decides.
-/

namespace KeyedColumns.Log

/-- A setting of the verbosity, by default or for the component of a number. -/
inductive Setting where
  | default (severity : Severity) (reset : Bool)
  | component (severity : Severity) (number : UInt32)

/-! ## The last setting that counts -/

/-- The level of a severity, as far as eight bits hold it. -/
def Severity.byte (s : Severity) : Nat := s.level.toNat % 256

namespace Setting

/-- Whether a setting takes back what was set for single components. -/
def resets : Setting → Bool
  | default _ reset => reset
  | component .. => false

def default? : Setting → Option Nat
  | default s _ => some s.byte
  | component .. => none

/-- What a setting sets for the component of a number. There are three components. -/
def for? (n : UInt32) : Setting → Option Nat
  | default .. => none
  | component s m => if m = n ∧ n.toNat < 3 then some s.byte else none

end Setting

/-- The default that was set last, or the initial one. -/
def lastDefault (initial : Severity) (history : List Setting) : Nat :=
  (history.filterMap Setting.default?).getLast?.getD initial.byte

/-- What was set last for the component of a number, since the last setting that resets. -/
def lastOf (n : UInt32) (history : List Setting) : Option Nat :=
  ((history.rtakeWhile (!·.resets)).filterMap (Setting.for? n)).getLast?

/-- The verbosity that holds for a component after a history. The byte 255 sets nothing. -/
def decisive (initial : Severity) (history : List Setting) : Component → Nat
  | .own n => ((lastOf n history).filter (· ≠ 255)).getD (lastDefault initial history)
  | _ => lastDefault initial history

/-! ## Settings one after the other -/

namespace Config

/-- The configuration after a setting, if there is such a component. -/
def change? (c : Config) : Setting → Option Config
  | .default s reset => some (c.setDefault s reset)
  | .component s n => c.setComponent? s n

/-- The configuration after some settings. One that is refused changes nothing. -/
def after (c : Config) (history : List Setting) : Config :=
  history.foldl (fun c s => (c.change? s).getD c) c

end Config

variable {initial : Severity} {stamps : Bool} {history : List Setting} {s : Setting}

theorem Config.after_snoc (c : Config) :
    c.after (history ++ [s]) = ((c.after history).change? s).getD (c.after history) := by
  simp only [after, List.foldl_append, List.foldl_cons, List.foldl_nil]

theorem lastDefault_snoc :
    lastDefault initial (history ++ [s]) = s.default?.getD (lastDefault initial history) := by
  unfold lastDefault
  rw [List.filterMap_append, List.getLast?_append]
  cases hs : s.default? <;> simp [hs]

theorem lastOf_snoc {n : UInt32} :
    lastOf n (history ++ [s]) = if s.resets then none else (s.for? n).or (lastOf n history) := by
  unfold lastOf
  rw [List.rtakeWhile_concat]
  cases hr : s.resets with
  | true => simp
  | false =>
    simp only [Bool.not_false, if_true, List.filterMap_append, List.getLast?_append]
    cases hs : s.for? n <;> simp [hs]

theorem lastOf_eq_none {n : UInt32} (hn : 3 ≤ n.toNat) : lastOf n history = none := by
  have hnone : ∀ s, Setting.for? n s = none := by
    intro s
    cases s with
    | default s reset => rfl
    | component s m => exact if_neg fun h => absurd h.2 (Nat.not_lt.mpr hn)
  unfold lastOf
  rw [List.filterMap_eq_nil_iff.mpr fun s _ => hnone s]
  rfl

/-! ## What a configuration keeps -/

theorem Severity.toNat_kept (s : Severity) : s.kept.toNat = s.byte := by
  simp [kept, byte]

theorem Config.toNat_asSet (s : Severity) :
    (asSet s.kept).map UInt8.toNat = (some s.byte).filter (· ≠ 255) := by
  have hbyte : s.kept = 255 ↔ s.byte = 255 := by
    rw [← s.toNat_kept, ← UInt8.toNat_inj]
    rfl
  unfold asSet
  by_cases h : s.kept = 255
  · rw [if_pos h, hbyte.mp h]
    rfl
  · rw [if_neg h, Option.filter_some, if_pos (by simpa using mt hbyte.mpr h), ← s.toNat_kept]
    rfl

namespace OwnComponent

theorem ofNumber?_eq_none_iff {n : UInt32} : ofNumber? n = none ↔ 3 ≤ n.toNat := by
  have h₀ : (0 : UInt32).toNat = 0 := rfl
  have h₁ : (1 : UInt32).toNat = 1 := rfl
  have h₂ : (2 : UInt32).toNat = 2 := rfl
  unfold ofNumber?
  simp only [← UInt32.toNat_inj, h₀, h₁, h₂]
  constructor
  · intro h
    split at h
    · cases h
    · split at h
      · cases h
      · split at h
        · cases h
        · omega
  · intro h
    rw [if_neg (by omega), if_neg (by omega), if_neg (by omega)]

theorem number_lt (o : OwnComponent) : o.number.toNat < 3 := by
  cases o <;> decide

theorem number_of_ofNumber? {n : UInt32} {o : OwnComponent} (h : ofNumber? n = some o) :
    o.number = n := by
  unfold ofNumber? at h
  split at h
  · next e => cases h; exact e.symm
  · split at h
    · next e => cases h; exact e.symm
    · split at h
      · next e => cases h; exact e.symm
      · cases h

theorem number_inj {o p : OwnComponent} : o.number = p.number ↔ o = p := by
  cases o <;> cases p <;> decide

end OwnComponent

namespace Config

theorem verbosity_after (initial : Severity) (stamps : Bool) (history : List Setting) :
    ((ofDefault initial stamps).after history).verbosity.toNat = lastDefault initial history := by
  induction history using List.reverseRecOn with
  | nil => exact initial.toNat_kept
  | append_singleton history s ih =>
    rw [after_snoc, lastDefault_snoc]
    cases s with
    | default s reset => exact s.toNat_kept
    | component s n =>
      simp only [change?, setComponent?, Setting.default?, Option.getD_none]
      split <;> exact ih

theorem verbosityOf_after (initial : Severity) (stamps : Bool) (history : List Setting)
    (o : OwnComponent) :
    (((ofDefault initial stamps).after history).verbosityOf o).map UInt8.toNat =
      (lastOf o.number history).filter (· ≠ 255) := by
  induction history using List.reverseRecOn with
  | nil => rfl
  | append_singleton history s ih =>
    rw [after_snoc, lastOf_snoc]
    cases s with
    | default s reset =>
      cases reset with
      | true => rfl
      | false => exact ih
    | component s n =>
      simp only [change?, setComponent?, Setting.resets, Setting.for?]
      split
      · next hn =>
        have hne : n ≠ o.number := by
          rintro rfl
          have hlt := o.number_lt
          have hle := OwnComponent.ofNumber?_eq_none_iff.mp hn
          omega
        simpa [hne] using ih
      · next p hn =>
        obtain rfl := OwnComponent.number_of_ofNumber? hn
        by_cases hp : o = p
        · subst hp
          simpa [o.number_lt] using toNat_asSet s
        · have hne : p.number ≠ o.number := fun e => hp (OwnComponent.number_inj.mp e).symm
          simpa [hne, hp] using ih

theorem toNat_limit_after (c : Component) :
    (((ofDefault initial stamps).after history).limit c).toNat = decisive initial history c := by
  cases c with
  | empty | foreign n => exact verbosity_after initial stamps history
  | own n =>
    simp only [limit, Component.own?, decisive]
    cases hn : OwnComponent.ofNumber? n with
    | none =>
      rw [lastOf_eq_none (OwnComponent.ofNumber?_eq_none_iff.mp hn)]
      exact verbosity_after initial stamps history
    | some o =>
      obtain rfl := OwnComponent.number_of_ofNumber? hn
      rw [← verbosityOf_after initial stamps history, ← verbosity_after initial stamps history,
        Option.getD_map]

end Config

/--
After any history of settings, a message passes just if its level, in eight bits, is at most the last
verbosity that was set for its component, or else the last default. Only settings past the last
component are refused, and they do not count.
-/
theorem passes_iff_last_setting (initial : Severity) (stamps : Bool) (history : List Setting) :
    (∀ s c, ((Config.ofDefault initial stamps).after history).passes s c ↔
      s.byte ≤ decisive initial history c) ∧
    ∀ s, ((Config.ofDefault initial stamps).after history).change? s = none ↔
      ∃ severity n, s = .component severity n ∧ 3 ≤ n.toNat := by
  constructor
  · intro s c
    rw [← s.toNat_kept, ← Config.toNat_limit_after, Config.passes, decide_eq_true_eq,
      UInt8.le_iff_toNat_le]
  · intro s
    cases s with
    | default s reset => simp [Config.change?]
    | component s n =>
      simp [Config.change?, Config.setComponent?_eq_none_iff, OwnComponent.ofNumber?_eq_none_iff]

-- Setting 255 takes back what was set for the component, so the last default holds again.
example : decisive .info
    [.component .trace 2, .default .warning false, .component ⟨255⟩ 2] (.own 2) = 3 := by decide

end KeyedColumns.Log
