import KeyedColumns.Contents
import KeyedColumns.Store

/-!
# Parts that collections share

The three parts of the contents of a collection stand in stores, and a collection holds a reference to
each. Two collections that hold the same references show the same contents, always.
-/

namespace KeyedColumns

/-- The references that a collection holds. -/
structure Handle where
  sequence : Ref EntrySequence
  index : Ref KeyIndex
  active : Ref ActiveSet
deriving DecidableEq

/-- The parts of all collections, those that nobody holds any more included. -/
structure Parts where
  sequences : Store EntrySequence
  indexes : Store KeyIndex
  actives : Store ActiveSet

namespace Parts

def empty : Parts := ⟨Store.empty, Store.empty, Store.empty⟩

/-- What a collection with this handle contains. -/
def contents (p : Parts) (h : Handle) : Contents :=
  { sequence := p.sequences.get h.sequence
    index := p.indexes.get h.index
    active := p.actives.get h.active }

/-- Changes the parts under a handle, for everyone who holds them. -/
def write (p : Parts) (h : Handle) (c : Contents) : Parts :=
  { sequences := p.sequences.set h.sequence c.sequence
    indexes := p.indexes.set h.index c.index
    actives := p.actives.set h.active c.active }

def next (p : Parts) : Handle := ⟨p.sequences.next, p.indexes.next, p.actives.next⟩

/-- Adds parts that nobody holds yet. -/
def push (p : Parts) (c : Contents) : Parts :=
  { sequences := p.sequences.push c.sequence
    indexes := p.indexes.push c.index
    actives := p.actives.push c.active }

def Holds (p : Parts) (h : Handle) : Prop :=
  p.sequences.Holds h.sequence ∧ p.indexes.Holds h.index ∧ p.actives.Holds h.active

/-! ## Laws -/

@[simp] theorem contents_push_next (p : Parts) (c : Contents) : (p.push c).contents p.next = c := by
  simp [contents, push, next]

theorem contents_write_self {p : Parts} {h : Handle} (hh : p.Holds h) (c : Contents) :
    (p.write h c).contents h = c := by
  simp [contents, write, Store.get_set_self hh.1, Store.get_set_self hh.2.1,
    Store.get_set_self hh.2.2]

theorem write_contents (p : Parts) (h : Handle) : p.write h (p.contents h) = p := by
  simp [contents, write, Store.set_get]

theorem write_write (p : Parts) (h : Handle) (c d : Contents) :
    (p.write h c).write h d = p.write h d := by
  simp [write, Store.set_set]

end Parts

end KeyedColumns
