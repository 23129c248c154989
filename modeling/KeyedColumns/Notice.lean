import KeyedColumns.Collection.Kind
import KeyedColumns.Error
import KeyedColumns.Log.Severity

/-!
# Notices

What a collection reports about its work. A notice is data; its severity, the operation it comes from
and its wording follow from it. Whether it is logged is decided elsewhere.
-/

namespace KeyedColumns

/-- The operation in which a notice or a failure arises. -/
inductive Operation where
  | lookup
  | contains
  | add
  | extend
  | replace
  | remove
  | populate
  | checkItem
  | checkItems
  | addChecked
  | replaceChecked
  | refuse
  | construct (kind : Kind)
deriving DecidableEq

namespace Operation

/-- The name by which messages know an operation. -/
def name : Operation → String
  | lookup => "at"
  | contains => "contains"
  | add => "add"
  | extend => "extend"
  | replace => "replace"
  | remove => "remove"
  | populate => "populate_separate_keys"
  | checkItem => "check_item"
  | checkItems => "check_items"
  | addChecked => "add_checked"
  | replaceChecked => "replace_checked"
  | refuse => "refuse_mutation"
  | construct kind => kind.typeName

end Operation

/-- How a message refers to an object. -/
inductive Reference where
  | null
  | item (item : ItemId)
  /-- A collection by the name of its slot. -/
  | slot (name : String)
  | unnamed
deriving DecidableEq

namespace Reference

def ofItem? : Option ItemId → Reference
  | some i => item i
  | none => null

def text : Reference → String
  | null => "0"
  | item i => "@" ++ i.label
  | slot name => "@" ++ name
  | unnamed => "@?"

end Reference

/-- An item as notices about its placing show it: its name and its identity. -/
structure Mention where
  name : String
  item : ItemId
deriving DecidableEq

namespace Mention

def text (m : Mention) : String := "[" ++ m.name ++ "] [" ++ (Reference.item m.item).text ++ "]"

end Mention

/-- Something that a collection reports. `shown` is the text of a collection at that time. -/
inductive Notice where
  | missingKey (shown key : String)
  | pastEnd (shown : String) (position size : Nat)
  | askedForItem (shown : String) (item : Option ItemId)
  /-- An entry to start from has no item. -/
  | nullEntry (key : String)
  | mismatchedKey (name key given : String)
  | emptyKey (item : Mention)
  | notMember (shown : String) (item : Mention)
  | refused (shown : String) (operation : Operation)
  /-- A call fails for this cause. -/
  | emitted (operation : Operation) (error : CollectionError)
  /-- A collection was made; `given` counts the entries it was given, where that may be more. -/
  | created (kind : Kind) (shown : String) (self : Reference) (size : Nat) (given : Option Nat)
  /-- A collection was made without its entries. -/
  | leftEmpty (kind : Kind) (self : Reference)
  | copied (kind : Kind) (shown : String) (source self : Reference)
  | viewed (self : Reference) (sourceKind : Kind) (source : Reference) (size : Nat)
  | appended (operation : Operation) (self : Reference) (item : Mention) (key : String)
    (position : Nat)
  | extended (self : Reference) (count size : Nat)
  | alreadyPresent (self : Reference) (item : Mention)
  | tookPlace (self : Reference) (item : Mention) (old : ItemId) (key : String) (position : Nat)
  | alreadyInPlace (self : Reference) (item : Mention) (position : Nat)
  | placed (self : Reference) (item : Mention) (position : Nat) (byKey byName : Option ItemId)
    (size : Nat)
  | removed (self : Reference) (item : Mention) (position size : Nat)
  | populated (self : Reference) (given deferred size : Nat)
deriving DecidableEq

namespace Notice

open Log (Severity)

/-- Failures are warnings, new collections are of interest for debugging, the rest is a trace. -/
def severity : Notice → Severity
  | emitted .. | leftEmpty .. => .warning
  | created .. | copied .. | viewed .. => .debug
  | _ => .trace

def operation : Notice → Operation
  | missingKey .. | pastEnd .. => .lookup
  | askedForItem .. => .contains
  | nullEntry .. => .checkItems
  | mismatchedKey .. | emptyKey .. => .checkItem
  | notMember .. | removed .. => .remove
  | refused .. => .refuse
  | emitted operation _ => operation
  | created kind .. | leftEmpty kind .. | copied kind .. => .construct kind
  | viewed .. => .construct .view
  | appended operation .. => operation
  | extended .. => .extend
  | alreadyPresent .. | tookPlace .. => .addChecked
  | alreadyInPlace .. | placed .. => .replaceChecked
  | populated .. => .populate

def text : Notice → String
  | missingKey shown key => "Collection [" ++ shown ++ "]: nothing under key [" ++ key ++ "]."
  | pastEnd shown position size =>
    "Collection [" ++ shown ++ "]: position [" ++ Text.digits position
      ++ "] is past the last position [" ++ Text.digits size ++ " - 1]."
  | askedForItem shown item =>
    "Collection [" ++ shown ++ "]: asked for membership of item [" ++ (Reference.ofItem? item).text
      ++ "] instead of a key; contains_column() would be the right call."
  | nullEntry key => "Entry under key [" ++ key ++ "] has a null item."
  | mismatchedKey name key given =>
    "Item [" ++ name ++ "] has key [" ++ key ++ "] but was given under key [" ++ given ++ "]."
  | emptyKey item => "Item " ++ item.text ++ " has empty key."
  | notMember shown item => "Collection [" ++ shown ++ "]: item " ++ item.text ++ " is not a member."
  | refused shown operation => "View [" ++ shown ++ "]: refusing [" ++ operation.name ++ "()]."
  | emitted _ error =>
    "Error code emitted: [" ++ (ErrorCode.failed error).text ++ "] [" ++ error.message ++ "]."
  | created _ shown self size given =>
    "Created [" ++ shown ++ "] [" ++ self.text ++ "] with [" ++ Text.digits size ++ "] entries"
      ++ (match given with
        | some n => " from [" ++ Text.digits n ++ "] given."
        | none => ".")
  | leftEmpty kind self =>
    "Cannot populate [" ++ kind.typeName ++ "] [" ++ self.text
      ++ "] due to above error; it stays empty."
  | copied _ shown source self =>
    "Copied [" ++ shown ++ "] [" ++ source.text ++ "] into [" ++ self.text ++ "]."
  | viewed self sourceKind source size =>
    "Made immutable view [" ++ self.text ++ "] of [" ++ sourceKind.typeName ++ "] [" ++ source.text
      ++ "] with [" ++ Text.digits size ++ "] entries."
  | appended _ self item key position =>
    "Collection [" ++ self.text ++ "]: appended item " ++ item.text ++ " under key [" ++ key
      ++ "] at position [" ++ Text.digits position ++ "]."
  | extended self count size =>
    "Collection [" ++ self.text ++ "]: appended [" ++ Text.digits count ++ "] items; size now ["
      ++ Text.digits size ++ "]."
  | alreadyPresent self item =>
    "Collection [" ++ self.text ++ "]: item " ++ item.text ++ " already present; nothing to do."
  | tookPlace self item old key position =>
    "Collection [" ++ self.text ++ "]: item " ++ item.text ++ " took the place of item ["
      ++ (Reference.item old).text ++ "] under key [" ++ key ++ "] at position ["
      ++ Text.digits position ++ "]."
  | alreadyInPlace self item position =>
    "Collection [" ++ self.text ++ "]: item " ++ item.text ++ " already in place at position ["
      ++ Text.digits position ++ "]; nothing to do."
  | placed self item position byKey byName size =>
    "Collection [" ++ self.text ++ "]: item " ++ item.text ++ " placed at position ["
      ++ Text.digits position ++ "], replacing by key [" ++ (Reference.ofItem? byKey).text
      ++ "] and by name [" ++ (Reference.ofItem? byName).text ++ "]; size now ["
      ++ Text.digits size ++ "]."
  | removed self item position size =>
    "Collection [" ++ self.text ++ "]: removed item " ++ item.text ++ " from position ["
      ++ Text.digits position ++ "]; size now [" ++ Text.digits size ++ "]."
  | populated self given deferred size =>
    "Collection [" ++ self.text ++ "]: populated from [" ++ Text.digits given
      ++ "] entries, of which [" ++ Text.digits deferred ++ "] by replacement; size now ["
      ++ Text.digits size ++ "]."

/-- The notice with another address of the object that it tells of. -/
def readdress (self : Reference) : Notice → Notice
  | created kind shown _ size given => created kind shown self size given
  | leftEmpty kind _ => leftEmpty kind self
  | copied kind shown source _ => copied kind shown source self
  | viewed _ sourceKind source size => viewed self sourceKind source size
  | appended operation _ item key position => appended operation self item key position
  | extended _ count size => extended self count size
  | alreadyPresent _ item => alreadyPresent self item
  | tookPlace _ item old key position => tookPlace self item old key position
  | alreadyInPlace _ item position => alreadyInPlace self item position
  | placed _ item position byKey byName size => placed self item position byKey byName size
  | removed _ item position size => removed self item position size
  | populated _ given deferred size => populated self given deferred size
  | notice => notice

end Notice

end KeyedColumns
