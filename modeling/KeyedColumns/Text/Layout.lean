/-!
# Laying out text

Numbers with a fixed width, fields padded to a width in bytes, and the place in a source file that a
log line or a failure names.
-/

namespace KeyedColumns.Text

/-- A text as it is written, in UTF-8. -/
def bytes (text : String) : List UInt8 := text.toUTF8.data.toList

/-- Blanks before `text`, until it has `width` bytes. -/
def padLeft (width : Nat) (text : String) : String :=
  String.ofList (List.replicate (width - text.utf8ByteSize) ' ') ++ text

/-- Zeros before `digits`, until there are `width` characters. -/
def zeros (width : Nat) (digits : String) : String :=
  String.ofList (List.replicate (width - digits.length) '0') ++ digits

/-- The decimal digits of a number, with no sign. -/
def digits (n : Nat) : String :=
  String.ofList (Nat.toDigits 10 n)

/-- A number in decimal, a minus sign before the digits of a negative one. -/
def decimal (n : Int) : String :=
  if n < 0 then "-" ++ digits n.natAbs else digits n.natAbs

/-- A number in decimal, filled up with zeros to `width` characters. The sign is one of them. -/
def zeroPadded (width : Nat) (n : Int) : String :=
  if n < 0 then "-" ++ zeros (width - 1) (digits n.natAbs) else zeros width (digits n.natAbs)

/-- The part of a path after its last slash: the whole path if it has none. -/
def baseName (path : String) : String :=
  String.ofList (path.toList.reverse.takeWhile (· ≠ '/')).reverse

/-- A place in a source file: `file:function(line)`. -/
def place (file function : String) (line : Nat) : String :=
  file ++ ":" ++ function ++ "(" ++ digits line ++ ")"

/-- The text before the first NUL: all of it if there is none. -/
def beforeNul (text : String) : String :=
  String.ofList (text.toList.takeWhile (· ≠ '\x00'))

/-! ## Laws -/

theorem slash_notMem_baseName (path : String) : '/' ∉ (baseName path).toList := by
  intro h
  rw [baseName, String.toList_ofList, List.mem_reverse] at h
  simpa using List.all_eq_true.1 List.all_takeWhile _ h

theorem nul_notMem_beforeNul (text : String) : '\x00' ∉ (beforeNul text).toList := by
  intro h
  rw [beforeNul, String.toList_ofList] at h
  simpa using List.all_eq_true.1 List.all_takeWhile _ h

end KeyedColumns.Text
