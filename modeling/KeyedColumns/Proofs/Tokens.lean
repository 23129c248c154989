import KeyedColumns.Log.Severity.Reading
import KeyedColumns.Text.Layout
import Mathlib.Data.List.Forall2
import Mathlib.Data.List.TakeWhile

/-!
# Tokens that name severities

A stream of bytes is a row of tokens with blanks between them. Extracting severities reads one token each
time, and says which severity it names, until no token is left. So severities that are written with blanks
between them are read back.
-/

namespace KeyedColumns.Log.Severity

open Text (bytes)

/-! ## Tokens -/

/-- The longest runs of bytes that are not blank, in order. -/
def tokens (input : List UInt8) : List (List UInt8) := (input.splitOnP isBlank).filter (· ≠ [])

/-- Some blanks, a token, and what comes after the token. -/
structure Parted (gap token rest : List UInt8) : Prop where
  gap : ∀ b ∈ gap, isBlank b
  nonempty : token ≠ []
  token : ∀ b ∈ token, ¬ isBlank b
  rest : ∀ b ∈ rest.head?, isBlank b

variable {gap token rest input : List UInt8}

theorem tokens_blanks_append (h : ∀ b ∈ gap, isBlank b) (input : List UInt8) :
    tokens (gap ++ input) = tokens input := by
  induction gap with
  | nil => rfl
  | cons b gap ih =>
    rw [List.forall_mem_cons] at h
    rw [List.cons_append, tokens, List.splitOnP_cons_eq_if_modifyHead, if_pos h.1]
    simpa [tokens] using ih h.2

theorem tokens_blanks (h : ∀ b ∈ gap, isBlank b) : tokens gap = [] := by
  have hall := tokens_blanks_append h []
  rw [List.append_nil] at hall
  rw [hall]
  rfl

theorem Parted.tokens_eq (h : Parted gap token rest) :
    tokens (gap ++ token ++ rest) = token :: tokens rest := by
  have htoken : ∀ b ∈ token, isBlank b = false := by simpa using h.token
  rw [List.append_assoc, tokens_blanks_append h.gap]
  cases rest with
  | nil =>
    rw [List.append_nil, tokens, List.splitOnP_eq_singleton htoken]
    simp [h.nonempty, tokens]
  | cons b rest =>
    have hb : isBlank b := h.rest b rfl
    have hskip : tokens (b :: rest) = tokens rest :=
      tokens_blanks_append (by simpa using hb : ∀ x ∈ [b], isBlank x) rest
    rw [hskip, tokens, List.splitOnP_append_cons_of_forall_mem htoken b hb, List.filter_cons_of_pos]
    · rfl
    · simpa using h.nonempty

theorem Parted.extract_eq (h : Parted gap token rest) :
    extract (gap ++ token ++ rest) = ⟨ofToken token, false, rest⟩ := by
  obtain ⟨b, token, rfl⟩ := List.exists_cons_of_ne_nil h.nonempty
  have hb : isBlank b = false := by simpa using h.token b List.mem_cons_self
  have hdrop : (gap ++ (b :: token) ++ rest).dropWhile isBlank = (b :: token) ++ rest := by
    rw [List.append_assoc, List.dropWhile_append_of_pos h.gap]
    simp [hb]
  have htoken : ∀ x ∈ b :: token, (!isBlank x) = true := by simpa using h.token
  have hrest : rest.takeWhile (!isBlank ·) = [] ∧ rest.dropWhile (!isBlank ·) = rest := by
    cases rest with
    | nil => exact ⟨rfl, rfl⟩
    | cons x rest =>
      have hx : isBlank x := h.rest x rfl
      simp [hx]
  unfold extract
  simp only [hdrop, List.takeWhile_append_of_pos htoken, List.dropWhile_append_of_pos htoken, hrest,
    List.append_nil]
  rfl

theorem blank_or_parted (input : List UInt8) : (∀ b ∈ input, isBlank b) ∨
    ∃ gap token rest, input = gap ++ token ++ rest ∧ Parted gap token rest := by
  by_cases hunread : input.dropWhile isBlank = []
  · exact .inl fun b hb => List.dropWhile_eq_nil_iff.mp hunread b hb
  · obtain ⟨b, unread, hb⟩ := List.exists_cons_of_ne_nil hunread
    have hhead : isBlank b = false := by
      have h := List.head?_dropWhile_not isBlank input
      rwa [hb] at h
    refine .inr ⟨input.takeWhile isBlank, (b :: unread).takeWhile (!isBlank ·),
      (b :: unread).dropWhile (!isBlank ·), ?_, ?_, ?_, ?_, ?_⟩
    · rw [List.append_assoc, List.takeWhile_append_dropWhile, ← hb, List.takeWhile_append_dropWhile]
    · exact fun x hx => List.all_eq_true.mp List.all_takeWhile x hx
    · simp [hhead]
    · exact fun x hx => by simpa using List.all_eq_true.mp List.all_takeWhile x hx
    · intro x hx
      have h := List.head?_dropWhile_not (!isBlank ·) (b :: unread)
      rw [Option.mem_def.mp hx] at h
      simpa using h

theorem extract_blanks (h : ∀ b ∈ input, isBlank b) : extract input = ⟨nothing, true, []⟩ :=
  extract_of_blank (List.dropWhile_eq_nil_iff.mpr h)

/-! ## Words for severities -/

/-- The capital letters of ASCII. -/
def IsCapital (b : UInt8) : Prop := 65 ≤ b.toNat ∧ b.toNat ≤ 90

/-- Two bytes that are equal, the case of ASCII letters aside. -/
def Alike (a b : UInt8) : Prop :=
  a = b ∨ IsCapital a ∧ b.toNat = a.toNat + 32 ∨ IsCapital b ∧ a.toNat = b.toNat + 32

/-- A word for a severity that has a name: the name in any case, or the number of the level. -/
def Writes (s : Severity) (word : List UInt8) : Prop :=
  s.level.toNat < 8 ∧
    (List.Forall₂ Alike word (bytes s.name) ∨ word = bytes (Text.digits s.level.toNat))

/-- What a token is read as: the severity for which it is a word, or none. -/
structure Denotes (token : List UInt8) (s : Severity) : Prop where
  word : ∀ t, Writes t token → s = t
  other : (∀ t, ¬ Writes t token) → s = nothing

variable {s t : Severity}

/-- The severities that have names. -/
def named : List Severity := [nothing, fatal, error, warning, info, debug, trace, data]

theorem mem_named (h : s.level.toNat < 8) : s ∈ named := by
  obtain ⟨level⟩ := s
  have hlt : level.toNat < 8 := h
  have hlevel : level = 0 ∨ level = 1 ∨ level = 2 ∨ level = 3 ∨ level = 4 ∨ level = 5 ∨ level = 6 ∨
      level = 7 := by
    simp only [← UInt64.toNat_inj]
    simp
    omega
  rcases hlevel with rfl | rfl | rfl | rfl | rfl | rfl | rfl | rfl <;> decide

theorem level_lt_of_mem_named : ∀ s ∈ named, s.level.toNat < 8 := by decide

theorem zipIdx_names : names.zipIdx = named.map fun s => (s.name, s.level.toNat) := by decide

theorem bytes_digits : ∀ s ∈ named,
    bytes (Text.digits s.level.toNat) = [48 + s.level.toNat.toUInt8] := by decide

theorem toNat_fold (b : UInt8) :
    (fold b).toNat = if 65 ≤ b.toNat ∧ b.toNat ≤ 90 then b.toNat + 32 else b.toNat := by
  have hb := b.toNat_lt
  unfold fold
  simp only [Bool.and_eq_true, decide_eq_true_eq, UInt8.le_iff_toNat_le, UInt8.toNat_ofNat]
  split
  · have hstep : (32 : UInt8).toNat = 32 := rfl
    rw [UInt8.toNat_add, hstep]
    omega
  · rfl

theorem fold_eq_iff {a b : UInt8} : fold a = fold b ↔ Alike a b := by
  unfold Alike IsCapital
  rw [← UInt8.toNat_inj, ← UInt8.toNat_inj, toNat_fold, toNat_fold]
  split <;> split <;> omega

theorem spells_iff {name : String} :
    spells token name ↔ List.Forall₂ Alike token (bytes name) := by
  unfold spells
  rw [decide_eq_true_iff, ← List.forall₂_eq_eq_eq, List.forall₂_map_left_iff,
    List.forall₂_map_right_iff]
  simp only [fold_eq_iff]

theorem writes_iff (hs : s ∈ named) :
    (spells token s.name || isDigit token s.level.toNat) ↔ Writes s token := by
  rw [Bool.or_eq_true, spells_iff, isDigit, decide_eq_true_iff, ← bytes_digits s hs, Writes,
    and_iff_right (level_lt_of_mem_named s hs)]

/-- The words for a severity, the case of letters aside. -/
def spellings (s : Severity) : List (List UInt8) :=
  [(bytes s.name).map fold, (bytes (Text.digits s.level.toNat)).map fold]

theorem Writes.mem_spellings (h : Writes s token) : token.map fold ∈ spellings s := by
  rcases h.2 with hname | hdigit
  · have hfold : token.map fold = (bytes s.name).map fold := of_decide_eq_true (spells_iff.mpr hname)
    simp [spellings, hfold]
  · simp [spellings, hdigit]

theorem eq_of_mem_spellings :
    ∀ s ∈ named, ∀ t ∈ named, ∀ w ∈ spellings s, w ∈ spellings t → s = t := by decide

/-- No token is a word for two severities. -/
theorem Writes.unique (h : Writes s token) (k : Writes t token) : s = t :=
  eq_of_mem_spellings s (mem_named h.1) t (mem_named k.1) _ h.mem_spellings k.mem_spellings

theorem ofToken_eq (token : List UInt8) : ofToken token =
    (named.find? fun s => spells token s.name || isDigit token s.level.toNat).getD nothing := by
  unfold ofToken
  rw [zipIdx_names, List.find?_map]
  simp only [Function.comp_def]
  cases named.find? fun s => spells token s.name || isDigit token s.level.toNat with
  | none => rfl
  | some s => simp

theorem denotes_ofToken (token : List UInt8) : Denotes token (ofToken token) := by
  rw [ofToken_eq]
  cases hfind : named.find? fun s => spells token s.name || isDigit token s.level.toNat with
  | none =>
    rw [List.find?_eq_none] at hfind
    refine ⟨fun t ht => ?_, fun _ => rfl⟩
    exact absurd ((writes_iff (mem_named ht.1)).mpr ht) (hfind t (mem_named ht.1))
  | some s =>
    have hfound := List.find?_some (p := fun s => _ || _) hfind
    have hs : Writes s token := (writes_iff (List.mem_of_find?_eq_some hfind)).mp hfound
    exact ⟨fun t ht => hs.unique ht, fun hnone => absurd hs (hnone s)⟩

/-! ### Words are tokens -/

theorem bytes_spellings : ∀ s ∈ named, ∀ w ∈ spellings s, w ≠ [] ∧ ∀ b ∈ w, ¬ isBlank b := by
  decide +kernel

theorem isBlank_iff {b : UInt8} : isBlank b ↔ b.toNat = 32 ∨ 9 ≤ b.toNat ∧ b.toNat ≤ 13 := by
  unfold isBlank
  simp only [Bool.or_eq_true, Bool.and_eq_true, decide_eq_true_eq, UInt8.le_iff_toNat_le,
    ← UInt8.toNat_inj, UInt8.toNat_ofNat]

theorem isBlank_fold (b : UInt8) : isBlank (fold b) ↔ isBlank b := by
  rw [isBlank_iff, isBlank_iff, toNat_fold]
  split <;> omega

theorem Writes.nonempty (h : Writes s token) : token ≠ [] := by
  rintro rfl
  exact (bytes_spellings s (mem_named h.1) _ h.mem_spellings).1 rfl

theorem Writes.not_blank (h : Writes s token) : ∀ b ∈ token, ¬ isBlank b := by
  intro b hb
  have hfold := (bytes_spellings s (mem_named h.1) _ h.mem_spellings).2 _ (List.mem_map_of_mem hb)
  rwa [isBlank_fold] at hfold

/-! ## Reading one token after the other -/

/-- What an extraction yields of the token that is due: only where there is none it fails. -/
def Reads : Option (List UInt8) → Extraction → Prop
  | some token, x => x.failed = false ∧ Denotes token x.severity
  | none, x => x.failed = true ∧ x.severity = nothing

/-- An input is cut right after its first tokens. -/
structure CutAfter (n : Nat) (input before after : List UInt8) : Prop where
  whole : before ++ after = input
  read : tokens before = (tokens input).take n
  unread : tokens after = (tokens input).drop n
  ends : ∀ b ∈ before.getLast?, ¬ isBlank b

theorem length_extractMany (n : Nat) (input : List UInt8) : (extractMany n input).1.length = n := by
  induction n generalizing input with
  | zero => rfl
  | succ n ih => exact congrArg (· + 1) (ih _)

theorem reads_extractMany {n i : Nat} (hi : i < n) (input : List UInt8) :
    ∃ x, (extractMany n input).1[i]? = some x ∧ Reads (tokens input)[i]? x := by
  induction n generalizing i input with
  | zero => cases hi
  | succ n ih =>
    obtain hblank | ⟨gap, token, rest, rfl, hparted⟩ := blank_or_parted input
    · simp only [extractMany, extract_blanks hblank, tokens_blanks hblank]
      cases i with
      | zero => exact ⟨_, rfl, rfl, rfl⟩
      | succ i => exact ih (Nat.lt_of_succ_lt_succ hi) []
    · simp only [extractMany, hparted.extract_eq, hparted.tokens_eq]
      cases i with
      | zero => exact ⟨_, rfl, rfl, denotes_ofToken token⟩
      | succ i => exact ih (Nat.lt_of_succ_lt_succ hi) rest

theorem extractMany_nil (n : Nat) : (extractMany n []).2 = [] := by
  induction n with
  | zero => rfl
  | succ n ih => exact ih

theorem Parted.cutAfter (h : Parted gap token rest) {n : Nat} {before after : List UInt8}
    (hcut : CutAfter n rest before after) :
    CutAfter (n + 1) (gap ++ token ++ rest) (gap ++ token ++ before) after := by
  have hbefore : Parted gap token before := by
    refine ⟨h.gap, h.nonempty, h.token, fun b hb => h.rest b ?_⟩
    rw [← hcut.whole, List.head?_append, Option.mem_def.mp hb]
    rfl
  refine ⟨?_, ?_, ?_, fun b hb => ?_⟩
  · rw [List.append_assoc, hcut.whole]
  · rw [hbefore.tokens_eq, h.tokens_eq, hcut.read, List.take_succ_cons]
  · rw [h.tokens_eq, hcut.unread, List.drop_succ_cons]
  · cases hlast : before.getLast? with
    | some x =>
      rw [List.getLast?_append, hlast] at hb
      obtain rfl : x = b := by simpa using hb
      exact hcut.ends x hlast
    | none =>
      rw [List.getLast?_append, hlast, List.getLast?_append_of_ne_nil _ h.nonempty] at hb
      exact h.token b (List.mem_of_getLast? hb)

theorem cutAfter_extractMany {n : Nat} {input : List UInt8} (hn : n ≤ (tokens input).length) :
    ∃ before, CutAfter n input before (extractMany n input).2 := by
  induction n generalizing input with
  | zero => exact ⟨[], rfl, rfl, rfl, nofun⟩
  | succ n ih =>
    obtain hblank | ⟨gap, token, rest, rfl, hparted⟩ := blank_or_parted input
    · rw [tokens_blanks hblank] at hn
      cases hn
    · rw [hparted.tokens_eq, List.length_cons] at hn
      obtain ⟨before, hcut⟩ := ih (Nat.le_of_succ_le_succ hn)
      refine ⟨gap ++ token ++ before, ?_⟩
      simp only [extractMany, hparted.extract_eq]
      exact hparted.cutAfter hcut

theorem extractMany_exhausted {n : Nat} {input : List UInt8} (hn : (tokens input).length < n) :
    (extractMany n input).2 = [] := by
  induction n generalizing input with
  | zero => cases hn
  | succ n ih =>
    obtain hblank | ⟨gap, token, rest, rfl, hparted⟩ := blank_or_parted input
    · simp only [extractMany, extract_blanks hblank, extractMany_nil]
    · rw [hparted.tokens_eq, List.length_cons] at hn
      simp only [extractMany, hparted.extract_eq]
      exact ih (Nat.lt_of_succ_lt_succ hn)

/-! ## Reading what was written -/

/-- Severities in writing, with blanks between them. -/
inductive Listed : List Severity → List UInt8 → Prop where
  | none {gap : List UInt8} (hgap : ∀ b ∈ gap, isBlank b) : Listed [] gap
  | word {s : Severity} {rest : List Severity} {gap word text : List UInt8}
    (hgap : ∀ b ∈ gap, isBlank b) (hword : Writes s word) (htext : ∀ b ∈ text.head?, isBlank b)
    (h : Listed rest text) : Listed (s :: rest) (gap ++ word ++ text)

theorem Listed.read_back {ss : List Severity} {text : List UInt8} (h : Listed ss text) :
    (extractMany ss.length text).1.map (fun x => (x.severity, x.failed)) = ss.map (·, false) := by
  induction h with
  | none => rfl
  | @word s rest gap word text hgap hword htext _ ih =>
    have hparted : Parted gap word text := ⟨hgap, hword.nonempty, hword.not_blank, htext⟩
    have hread : ofToken word = s := (denotes_ofToken word).word s hword
    simp only [List.length_cons, extractMany, hparted.extract_eq, List.map_cons, hread, ih]

/--
Of any bytes, each extraction reads the token that is due and says which severity it names, by name or by
number, if any. When no token is left it fails. What stays unread is just what follows the tokens that
were read. In particular severities that are written with blanks between them are read back.
-/
theorem reads_tokens (n : Nat) (input : List UInt8) :
    (extractMany n input).1.length = n ∧
    (∀ i < n, ∃ x, (extractMany n input).1[i]? = some x ∧ Reads (tokens input)[i]? x) ∧
    (n ≤ (tokens input).length → ∃ before, CutAfter n input before (extractMany n input).2) ∧
    ((tokens input).length < n → (extractMany n input).2 = []) ∧
    ∀ ss, Listed ss input →
      (extractMany ss.length input).1.map (fun x => (x.severity, x.failed)) = ss.map (·, false) :=
  ⟨length_extractMany n input, fun _ hi => reads_extractMany hi input, cutAfter_extractMany,
    extractMany_exhausted, fun _ h => h.read_back⟩

/-- Three severities in mixed case and as a number; and three tokens that are almost words, of which the
first ends in a NUL, with nothing but blanks after them. -/
theorem reads_tokens_of_almost_words :
    (extractMany 3 (bytes " Info\t4 dAtA\n")).1.map (fun x => (x.severity, x.failed)) =
      [(info, false), (info, false), (data, false)] ∧
    (∃ before, CutAfter 2 (bytes " Info\t4 dAtA\n") before (bytes " dAtA\n")) ∧
    tokens (bytes "INFO\x00 04\r\nwarn ") = [bytes "INFO\x00", bytes "04", bytes "warn"] ∧
    (∃ x, (extractMany 4 (bytes "INFO\x00 04\r\nwarn ")).1[0]? = some x ∧ x.failed = false ∧
      Denotes (bytes "INFO\x00") x.severity) ∧
    (∃ x, (extractMany 4 (bytes "INFO\x00 04\r\nwarn ")).1[3]? = some x ∧ x.failed = true ∧
      x.severity = nothing) := by
  have hlisted : Listed [info, info, data] (bytes " Info\t4 dAtA\n") := by
    show Listed _ ([32] ++ bytes "Info" ++ ([9] ++ bytes "4" ++ ([32] ++ bytes "dAtA" ++ [10])))
    have hinfo : Writes info (bytes "Info") := ⟨by decide, .inl (spells_iff.mp (by decide))⟩
    have hnumber : Writes info (bytes "4") := ⟨by decide, .inr (by decide)⟩
    have hdata : Writes data (bytes "dAtA") := ⟨by decide, .inl (spells_iff.mp (by decide))⟩
    refine .word (by decide +kernel) hinfo (by decide +kernel) ?_
    refine .word (by decide +kernel) hnumber (by decide +kernel) ?_
    exact .word (by decide +kernel) hdata (by decide +kernel) (.none (by decide +kernel))
  obtain ⟨-, -, hcut, -, hback⟩ := reads_tokens 2 (bytes " Info\t4 dAtA\n")
  obtain ⟨-, hreads, -⟩ := reads_tokens 4 (bytes "INFO\x00 04\r\nwarn ")
  exact ⟨hback _ hlisted, hcut (by decide), by decide, hreads 0 (by decide), hreads 3 (by decide)⟩

end KeyedColumns.Log.Severity
