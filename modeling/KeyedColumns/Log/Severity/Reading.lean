import KeyedColumns.Log.Severity
import KeyedColumns.Text.Layout

/-!
# Reading severities from a stream

Each extraction skips blanks and takes one token, the longest run of bytes that are not blank. A
token that names no severity is read as `Severity.nothing`; only a stream without a token fails.
-/

namespace KeyedColumns.Log.Severity

open Text (bytes)

/-- Blanks are the space and the five control characters from tab to carriage return. -/
def isBlank (b : UInt8) : Bool := b = 32 || (9 ≤ b && b ≤ 13)

/-- The small form of an ASCII letter; every other byte stays. -/
def fold (b : UInt8) : UInt8 := if 65 ≤ b && b ≤ 90 then b + 32 else b

/-- Whether a token is a name, the case of ASCII letters aside. -/
def spells (token : List UInt8) (name : String) : Bool :=
  token.map fold = (bytes name).map fold

/-- Whether a token is the digit of a level. -/
def isDigit (token : List UInt8) (level : Nat) : Bool := token = [48 + level.toUInt8]

/-- The severity that a token names or whose digit it is; `nothing` for any other token. -/
def ofToken (token : List UInt8) : Severity :=
  match names.zipIdx.find? (fun named => spells token named.1 || isDigit token named.2) with
  | some named => ⟨named.2.toUInt64⟩
  | none => nothing

/-- What one extraction yields, and what it leaves unread. -/
structure Extraction where
  severity : Severity
  failed : Bool
  rest : List UInt8
deriving DecidableEq

/-- Extracts one severity. The extraction fails if no token is left. -/
def extract (input : List UInt8) : Extraction :=
  let unread := input.dropWhile isBlank
  let token := unread.takeWhile (!isBlank ·)
  { severity := ofToken token, failed := token.isEmpty, rest := unread.dropWhile (!isBlank ·) }

/-- Extracts severities `n` times, one after the other. -/
def extractMany : Nat → List UInt8 → List Extraction × List UInt8
  | 0, input => ([], input)
  | n + 1, input =>
    let first := extract input
    let (others, rest) := extractMany n first.rest
    (first :: others, rest)

/-! ## Laws -/

/-- An extraction takes blanks and then its token, and loses nothing of what follows. -/
theorem append_rest_extract (input : List UInt8) :
    input.takeWhile isBlank ++ (input.dropWhile isBlank).takeWhile (!isBlank ·) ++ (extract input).rest
      = input := by
  simp [extract, List.append_assoc]

theorem extract_of_blank {input : List UInt8} (h : input.dropWhile isBlank = []) :
    extract input = ⟨nothing, true, []⟩ := by
  rw [extract, h]
  decide

end KeyedColumns.Log.Severity
