import KeyedColumns.Registry

/-!
# Archives

An archive holds some collections as they are when it is made. Restoring makes new parts and new
items, each once for the whole archive: what the saved collections share, the restored ones share.
-/

namespace KeyedColumns

/-! ## What is saved of an object -/

/-- What came of the objects in an archive when it was restored. -/
structure Renaming where
  item : ItemId → ItemId
  sequence : Ref EntrySequence → Ref EntrySequence
  index : Ref KeyIndex → Ref KeyIndex
  active : Ref ActiveSet → Ref ActiveSet

def Column.archived (c : Column) : Column := { name := c.name, key := c.key }

def Entry.archived (item : ItemId → ItemId) (e : Entry) : Entry :=
  { key := e.key, item := item e.item }

def EntrySequence.archived (item : ItemId → ItemId) (s : EntrySequence) : EntrySequence :=
  { entries := s.entries.map (Entry.archived item) }

def KeyIndex.archived (item : ItemId → ItemId) (x : KeyIndex) : KeyIndex :=
  { byKey := x.byKey.mapValues item
    byPosition := x.byPosition.map item
    firstPosition := x.firstPosition }

/-- Of a set, the members among the given items are saved. -/
def ActiveSet.archived (item : ItemId → ItemId) (items : List ItemId) (s : ActiveSet) : ActiveSet :=
  .ofList ((items.filter s.holds).map item)

/-- Of a collection its three references are saved. How it logs is not. -/
def Renaming.handle (m : Renaming) (h : Handle) : Handle :=
  { sequence := m.sequence h.sequence
    index := m.index h.index
    active := m.active h.active }

/-! ## Archives -/

/-- Saved collections, with the items and parts as they were then. -/
structure Archive where
  catalogue : Catalogue
  parts : Parts
  collections : List (Kind × Handle)

namespace Archive

def contents (a : Archive) (h : Handle) : Contents := a.parts.contents h

/-- The items of saved contents, in the order in which they are restored. -/
def itemsOf (a : Archive) (c : Contents) : List ItemId :=
  c.items ++ c.entries.map (·.item) ++ c.index.byKey.pairs.map (·.2)
    ++ a.catalogue.items.filter c.active.holds

end Archive

/-- A registry into which an archive is being restored, and what came of what was saved. -/
structure Restoration where
  registry : Registry
  items : Dict ItemId ItemId
  sequences : Dict (Ref EntrySequence) (Ref EntrySequence)
  indexes : Dict (Ref KeyIndex) (Ref KeyIndex)
  actives : Dict (Ref ActiveSet) (Ref ActiveSet)

namespace Restoration

def start (r : Registry) : Restoration :=
  { registry := r, items := Dict.empty, sequences := Dict.empty, indexes := Dict.empty,
    actives := Dict.empty }

/-- The renaming that the tables of what has been restored amount to. -/
def images (s : Restoration) : Renaming where
  item i := (s.items.find? i).getD i
  sequence q := (s.sequences.find? q).getD q
  index q := (s.indexes.find? q).getD q
  active q := (s.actives.find? q).getD q

/-- Restores an item, unless that has happened. -/
def restoreItem (a : Archive) (s : Restoration) (i : ItemId) : Restoration :=
  if s.items.contains i then s
  else
    { s with
      registry :=
        { s.registry with
          catalogue := s.registry.catalogue.restore (a.catalogue.column i).archived }
      items := s.items.put i s.registry.catalogue.nextRestored }

/-- Restores an entry sequence, unless that has happened. -/
def restoreSequence (a : Archive) (s : Restoration) (q : Ref EntrySequence) : Restoration :=
  if s.sequences.contains q then s
  else
    let parts := s.registry.parts
    let restored := (a.parts.sequences.get q).archived s.images.item
    { s with
      registry :=
        { s.registry with parts := { parts with sequences := parts.sequences.push restored } }
      sequences := s.sequences.put q parts.sequences.next }

def restoreIndex (a : Archive) (s : Restoration) (q : Ref KeyIndex) : Restoration :=
  if s.indexes.contains q then s
  else
    let parts := s.registry.parts
    let restored := (a.parts.indexes.get q).archived s.images.item
    { s with
      registry := { s.registry with parts := { parts with indexes := parts.indexes.push restored } }
      indexes := s.indexes.put q parts.indexes.next }

def restoreActive (a : Archive) (s : Restoration) (q : Ref ActiveSet) : Restoration :=
  if s.actives.contains q then s
  else
    let parts := s.registry.parts
    let restored := (a.parts.actives.get q).archived s.images.item a.catalogue.items
    { s with
      registry := { s.registry with parts := { parts with actives := parts.actives.push restored } }
      actives := s.actives.put q parts.actives.next }

/-- Restores the items and then the parts of a saved collection. -/
def restoreParts (a : Archive) (s : Restoration) (h : Handle) : Restoration :=
  let s := (a.itemsOf (a.contents h)).foldl (restoreItem a) s
  restoreActive a (restoreIndex a (restoreSequence a s h.sequence) h.index) h.active

/-- What stands in a slot once parts were loaded into it: what was there keeps the way it logs. -/
def loadedAs (before : Option Collection) (kind : Kind) (handle : Handle) : Collection :=
  match before with
  | some c => { c with handle }
  | none => { kind, handle, context := ⟨none, .collection⟩ }

/-- Restores a saved collection into a slot. -/
def restoreInto (a : Archive) (s : Restoration) (kind : Kind) (h : Handle) (slot : String) :
    Restoration :=
  let s := restoreParts a s h
  let collection := loadedAs (s.registry.collection? slot) kind (s.images.handle h)
  { s with registry := s.registry.hold slot collection }

/-- Restores saved collections into slots, the first into the first. -/
def restoreAll (a : Archive) : Restoration → List ((Kind × Handle) × String) → Restoration
  | s, [] => s
  | s, ((kind, h), slot) :: rest => restoreAll a (restoreInto a s kind h slot) rest

end Restoration

namespace Registry

def save (r : Registry) (slots : List String) : Archive :=
  { catalogue := r.catalogue
    parts := r.parts
    collections := (slots.filterMap r.collection?).map fun c => (c.kind, c.handle) }

/--
Restores an archive into slots, the first saved collection into the first. Collections past the last
slot stay in the archive.
-/
def restore (r : Registry) (a : Archive) (slots : List String) : Registry :=
  (Restoration.restoreAll a (Restoration.start r) (a.collections.zip slots)).registry

/-- Whether collections of these kinds can go into these slots, one after the other. -/
def fits (kinds : Dict String Kind) : List (Kind × String) → Bool
  | [] => true
  | (kind, slot) :: rest =>
    ((kinds.find? slot).getD kind = kind) && fits (kinds.addNew slot kind) rest

/-- Whether an archive can be restored into the slots: it holds enough, and of equal kinds. -/
def canRestore (r : Registry) (a : Archive) (slots : List String) : Bool :=
  slots.length ≤ a.collections.length
    && fits (r.slots.mapValues (·.kind)) ((a.collections.map (·.1)).zip slots)

end Registry

end KeyedColumns
