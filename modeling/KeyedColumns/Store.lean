/-!
# Stores

A store keeps values under references. References are given out in order and are never taken back,
so a new one differs from all that are in use.
-/

namespace KeyedColumns

/-- A reference to a value in a store of `α`. -/
structure Ref (α : Type) where
  index : Nat

namespace Ref

variable {α : Type}

@[ext] theorem ext {r s : Ref α} (h : r.index = s.index) : r = s := by
  cases r; cases s; simp_all

instance : DecidableEq (Ref α) := fun r s =>
  if h : r.index = s.index then isTrue (ext h) else isFalse fun e => h (e ▸ rfl)

end Ref

/-- Values under references. -/
structure Store (α : Type) where
  values : List α

namespace Store

variable {α : Type}

def empty : Store α := ⟨[]⟩

/-- The references in use are those below the size. -/
def size (s : Store α) : Nat := s.values.length

def Holds (s : Store α) (r : Ref α) : Prop := r.index < s.size

/-- The value under a reference; the default value if there is none. -/
def get [Inhabited α] (s : Store α) (r : Ref α) : α := s.values.getD r.index default

/-- Puts a value under a reference that is in use. -/
def set (s : Store α) (r : Ref α) (v : α) : Store α := ⟨s.values.set r.index v⟩

def next (s : Store α) : Ref α := ⟨s.size⟩

def push (s : Store α) (v : α) : Store α := ⟨s.values ++ [v]⟩

/-! ## Laws -/

@[simp] theorem size_push (s : Store α) (v : α) : (s.push v).size = s.size + 1 := by
  simp [size, push]

@[simp] theorem size_set (s : Store α) (r : Ref α) (v : α) : (s.set r v).size = s.size := by
  simp [size, set]

theorem set_set (s : Store α) (r : Ref α) (v w : α) : (s.set r v).set r w = s.set r w := by
  simp [set]

theorem not_holds_next (s : Store α) : ¬ s.Holds s.next := by simp [Holds, next]

variable [Inhabited α]

@[simp] theorem get_push_next (s : Store α) (v : α) : (s.push v).get s.next = v := by
  simp [get, push, next, size]

theorem get_push_of_holds {s : Store α} {r : Ref α} (h : s.Holds r) (v : α) :
    (s.push v).get r = s.get r := by
  simp only [Holds, size] at h
  simp [get, push, List.getElem?_append_left h]

theorem get_set_self {s : Store α} {r : Ref α} (h : s.Holds r) (v : α) : (s.set r v).get r = v := by
  simp only [Holds, size] at h
  simp [get, set, h]

theorem get_set_of_ne (s : Store α) {r q : Ref α} (h : r ≠ q) (v : α) :
    (s.set r v).get q = s.get q := by
  have : r.index ≠ q.index := fun e => h (Ref.ext e)
  simp [get, set, this]

theorem set_get (s : Store α) (r : Ref α) : s.set r (s.get r) = s := by
  unfold set get
  congr 1
  apply List.ext_getElem?
  intro j
  rw [List.getElem?_set]
  split
  · next e =>
    subst e
    split
    · next hlt => simp [hlt]
    · next hle => simp [hle]
  · rfl

end Store

end KeyedColumns
