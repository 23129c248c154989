import KeyedColumns.Log.Line
import Mathlib

/-!
# Stamps that count seconds

Without a calendar, a line starts with the seconds and the microseconds of its time and a point between
them. The seconds are cut toward zero, so either field may have a sign, and a sign counts when the
microseconds are filled up to six characters. Still nothing is lost: the two fields, read as decimals,
make up the time.
-/

namespace KeyedColumns

/-! ## Reading decimals -/

namespace Text

/-! ### Bytes -/

theorem bytes_append (s t : String) : bytes (s ++ t) = bytes s ++ bytes t := by
  simp [bytes]

theorem bytes_of_ascii {s : String} (h : ∀ c ∈ s.toList, c.toNat < 128) :
    bytes s = s.toList.map fun c => c.toNat.toUInt8 := by
  have hchar : ∀ c : Char, c.toNat < 128 → String.utf8EncodeChar c = [c.toNat.toUInt8] := by
    intro c hc
    unfold String.utf8EncodeChar
    exact if_pos (Nat.lt_succ_iff.mp hc)
  unfold bytes
  rw [String.toUTF8_eq_toByteArray, ← String.utf8Encode_toList, List.utf8Encode,
    List.toList_data_toByteArray, List.flatMap_congr fun c hc => hchar c (h c hc),
    List.map_eq_flatMap]

theorem ofNat_byte {c : Char} (h : c.toNat < 128) : Char.ofNat c.toNat.toUInt8.toNat = c := by
  have hbyte : c.toNat.toUInt8.toNat = c.toNat := by
    simp
    omega
  rw [hbyte, Char.ofNat_toNat]

/-! ### Digits -/

variable {width n : Nat} {m : Int} {c : Char}

theorem decimal_eq_zeroPadded (m : Int) : decimal m = zeroPadded 0 m := by
  simp [decimal, zeroPadded, zeros]

theorem isDigit_of_mem_zeros (h : c ∈ (zeros width (digits n)).toList) : c.isDigit := by
  simp only [zeros, digits, String.toList_append, String.toList_ofList, List.mem_append] at h
  rcases h with h | h
  · rw [List.eq_of_mem_replicate h]
    rfl
  · exact Nat.isDigit_of_mem_toDigits (by omega) (by omega) h

theorem toNat?_zeros (width n : Nat) : (zeros width (digits n)).toNat? = some n := by
  have hne : zeros width (digits n) ≠ "" := by simp [zeros, digits]
  have hdigits : ∀ c ∈ (zeros width (digits n)).toList, c.isDigit := fun _ => isDigit_of_mem_zeros
  -- The reader passes over underscores, but there are none among digits.
  have hplain : '_' ∉ (zeros width (digits n)).toList := fun h => absurd (hdigits _ h) (by decide)
  rw [String.toNat?_eq_some_ofDigitChars (String.isNat_of_isDigit hne hdigits),
    List.filter_bne_eq_self_of_not_mem hplain]
  simp [zeros, digits, Nat.ofDigitChars_append]

theorem toInt?_zeroPadded (width : Nat) (m : Int) : (zeroPadded width m).toInt? = some m := by
  unfold zeroPadded
  split
  · rw [String.toInt?_minus_append, toNat?_zeros]
    simp only [Option.map_some, Option.some.injEq]
    omega
  · rw [String.toInt?_eq_some_of_toNat?_eq_some (toNat?_zeros width m.natAbs), Option.some.injEq]
    omega

theorem mem_zeroPadded (h : c ∈ (zeroPadded width m).toList) : c = '-' ∨ c.isDigit := by
  unfold zeroPadded at h
  split at h
  · rw [String.toList_append, List.mem_append] at h
    rcases h with h | h
    · left
      simpa using h
    · exact Or.inr (isDigit_of_mem_zeros h)
  · exact Or.inr (isDigit_of_mem_zeros h)

theorem notMem_zeroPadded (hsign : c ≠ '-') (hc : ¬ c.isDigit) :
    c ∉ (zeroPadded width m).toList :=
  fun h => (mem_zeroPadded h).elim hsign hc

theorem notMem_decimal (hsign : c ≠ '-') (hc : ¬ c.isDigit) : c ∉ (decimal m).toList := by
  rw [decimal_eq_zeroPadded]
  exact notMem_zeroPadded hsign hc

theorem zeroPadded_natCast (width n : Nat) : zeroPadded width n = zeros width (digits n) := by
  unfold zeroPadded
  rw [if_neg (by omega), Int.natAbs_natCast]

theorem length_zeros (hwidth : 0 < width) (hn : n < 10 ^ width) :
    (zeros width (digits n)).length = width := by
  have hdigits : (Nat.toDigits 10 n).length ≤ width :=
    (Nat.length_toDigits_le_iff (by omega) hwidth).mpr hn
  have hlength : (zeros width (digits n)).length =
      (width - (Nat.toDigits 10 n).length) + (Nat.toDigits 10 n).length := by
    simp [zeros, digits]
  omega

end Text

namespace Log

/-! ## The fields of a stamp -/

/-- What the bytes of a line say up to the first blank. -/
def stampOf (line : List UInt8) : String :=
  String.ofList ((line.takeWhile (· ≠ 32)).map fun b => Char.ofNat b.toNat)

/-- What a stamp says between its points. -/
def fields (stamp : String) : List String := (stamp.toList.splitOn '.').map String.ofList

/-- Two decimals that make up a time, the second of them six digits if the time is not before 1970. -/
structure MakesUp (t : Timestamp) (seconds fraction : String) : Prop where
  sum : ∃ s u : Int, seconds.toInt? = some s ∧ fraction.toInt? = some u ∧ s * 1000000 + u = t.micros
  digits : 0 ≤ t.micros → fraction.length = 6 ∧ ∀ c ∈ fraction.toList, c.isDigit

theorem MakesUp.unique {t v : Timestamp} {seconds fraction : String} (ht : MakesUp t seconds fraction)
    (hv : MakesUp v seconds fraction) : t = v := by
  obtain ⟨s, u, hs, hu, ht⟩ := ht.sum
  obtain ⟨s', u', hs', hu', hv⟩ := hv.sum
  rw [hs, Option.some.injEq] at hs'
  rw [hu, Option.some.injEq] at hu'
  have hmicros : t.micros = v.micros := by omega
  exact congrArg Timestamp.mk hmicros

namespace Timestamp

theorem digits_fractionText (t : Timestamp) (h : 0 ≤ t.micros) :
    t.fractionText.length = 6 ∧ ∀ c ∈ t.fractionText.toList, c.isDigit := by
  have hpos : 0 ≤ t.fraction := Int.tmod_nonneg _ h
  have hlt : t.fraction < 1000000 := Int.tmod_lt_of_pos _ (by omega)
  obtain ⟨u, hu⟩ := Int.eq_ofNat_of_zero_le hpos
  unfold fractionText
  rw [hu, Text.zeroPadded_natCast]
  exact ⟨Text.length_zeros (by omega) (by omega), fun _ => Text.isDigit_of_mem_zeros⟩

theorem makesUp_plainText (t : Timestamp) : MakesUp t (Text.decimal t.seconds) t.fractionText where
  sum := by
    refine ⟨t.seconds, t.fraction, ?_, ?_, t.seconds_fraction⟩
    · rw [Text.decimal_eq_zeroPadded, Text.toInt?_zeroPadded]
    · exact Text.toInt?_zeroPadded 6 t.fraction
  digits := t.digits_fractionText

theorem fields_plainText (t : Timestamp) :
    fields t.plainText = [Text.decimal t.seconds, t.fractionText] := by
  have hseconds : '.' ∉ (Text.decimal t.seconds).toList :=
    Text.notMem_decimal (by decide) (by decide)
  have hfraction : '.' ∉ t.fractionText.toList := Text.notMem_zeroPadded (by decide) (by decide)
  have hpoint : t.plainText.toList =
      (Text.decimal t.seconds).toList ++ '.' :: t.fractionText.toList := by
    simp [plainText]
  unfold fields
  rw [hpoint, List.splitOn_append_cons_self_of_not_mem hseconds, List.splitOn_eq_singleton hfraction]
  simp

theorem mem_plainText {t : Timestamp} {c : Char} (h : c ∈ t.plainText.toList) :
    c = '-' ∨ c = '.' ∨ c.isDigit := by
  simp only [plainText, String.toList_append, List.mem_append] at h
  rcases h with (h | h) | h
  · rw [Text.decimal_eq_zeroPadded] at h
    exact (Text.mem_zeroPadded h).imp_right Or.inr
  · exact Or.inr (Or.inl (by simpa using h))
  · exact (Text.mem_zeroPadded h).imp_right Or.inr

theorem ascii_plainText (t : Timestamp) : ∀ c ∈ t.plainText.toList, c.toNat < 128 ∧ c ≠ ' ' := by
  intro c hc
  rcases mem_plainText hc with rfl | rfl | hdigit
  · decide
  · decide
  · rw [Char.isDigit_iff_toNat] at hdigit
    refine ⟨Nat.lt_of_le_of_lt hdigit.2 (by decide), ?_⟩
    rintro rfl
    exact absurd hdigit (by decide)

end Timestamp

theorem stampOf_eq {stamp : String} (h : ∀ c ∈ stamp.toList, c.toNat < 128 ∧ c ≠ ' ')
    (rest : List UInt8) : stampOf (Text.bytes stamp ++ 32 :: rest) = stamp := by
  have hblank : ∀ b ∈ Text.bytes stamp, decide (b ≠ 32) = true := by
    rw [Text.bytes_of_ascii fun c hc => (h c hc).1]
    intro b hb
    obtain ⟨c, hc, rfl⟩ := List.mem_map.mp hb
    rw [decide_eq_true_eq]
    intro heq
    have hchar := Text.ofNat_byte (h c hc).1
    rw [heq] at hchar
    exact (h c hc).2 hchar.symm
  have hback : (Text.bytes stamp).map (fun b => Char.ofNat b.toNat) = stamp.toList := by
    rw [Text.bytes_of_ascii fun c hc => (h c hc).1, List.map_map]
    exact (List.map_congr_left fun c hc => Text.ofNat_byte (h c hc).1).trans (List.map_id _)
  unfold stampOf
  rw [List.takeWhile_append_of_pos hblank, List.takeWhile_cons_of_neg (by decide), List.append_nil,
    hback, String.ofList_toList]

theorem Writer.block_eq (w : Writer) (m : Metadata) (message : List UInt8) :
    ∃ rest, w.block m message = Text.bytes (w.stamp m.site.time) ++ 32 :: rest := by
  -- The blank that ends the stamp belongs to the piece with the bracket.
  have hbracket : Text.bytes " [" = 32 :: Text.bytes "[" := by decide
  unfold Writer.block Writer.heading
  simp only [Text.bytes_append, hbracket, List.append_assoc, List.cons_append]
  exact ⟨_, rfl⟩

theorem stampOf_block {w : Writer} (hw : w.calendarStamps = false) (m : Metadata)
    (message : List UInt8) : stampOf (w.block m message) = m.site.time.plainText := by
  obtain ⟨rest, hrest⟩ := w.block_eq m message
  have hstamp : w.stamp m.site.time = m.site.time.plainText := by
    unfold Writer.stamp
    rw [hw]
    rfl
  rw [hrest, hstamp, stampOf_eq m.site.time.ascii_plainText]

/-! ## What a line tells of its time -/

/--
Without a calendar, the stamp of a line has two fields that make up the time of the message, also of one
before 1970, and from then on the second field has six digits. So lines with one stamp have one time.
-/
theorem stamps_tell_time {w : Writer} (hw : w.calendarStamps = false) :
    (∀ m message, ∃ seconds fraction,
      fields (stampOf (w.block m message)) = [seconds, fraction] ∧
      MakesUp m.site.time seconds fraction) ∧
    ∀ m n message other, stampOf (w.block m message) = stampOf (w.block n other) →
      m.site.time = n.site.time := by
  have hfields : ∀ m message, fields (stampOf (w.block m message)) =
      [Text.decimal m.site.time.seconds, m.site.time.fractionText] := by
    intro m message
    rw [stampOf_block hw, Timestamp.fields_plainText]
  refine ⟨fun m message => ⟨_, _, hfields m message, m.site.time.makesUp_plainText⟩,
    fun m n message other h => ?_⟩
  have hsame := congrArg fields h
  rw [hfields, hfields, List.cons.injEq, List.cons.injEq] at hsame
  have hm := m.site.time.makesUp_plainText
  rw [hsame.1, hsame.2.1] at hm
  exact hm.unique n.site.time.makesUp_plainText

/-- Five microseconds before 1970 the second field alone has a sign, in the lines of two messages; five
microseconds after the start of 1970 it has six digits. -/
theorem stamps_tell_time_of_moments : ∃ (w : Writer) (m n later : Metadata),
    w.calendarStamps = false ∧ m.site.time = ⟨-5⟩ ∧ later.site.time = ⟨5⟩ ∧
    stampOf (w.block m (Text.bytes "up. down")) = "0.-00005" ∧ stampOf (w.block n []) = "0.-00005" ∧
    n.site.time = m.site.time ∧
    (∃ seconds fraction, fields "0.-00005" = [seconds, fraction] ∧
      MakesUp ⟨-5⟩ seconds fraction) ∧
    stampOf (w.block later []) = "0.000005" ∧
    ∃ seconds fraction, fields "0.000005" = [seconds, fraction] ∧ MakesUp ⟨5⟩ seconds fraction ∧
      fraction.length = 6 := by
  let line (severity : Severity) (micros : Int) : Metadata :=
    { component := .collection, severity, site := ⟨"a.b", "f g", 7, ⟨micros⟩⟩ }
  let w : Writer := ⟨false, .utc⟩
  obtain ⟨htell, hsame⟩ := stamps_tell_time (w := w) rfl
  have hm : stampOf (w.block (line .info (-5)) (Text.bytes "up. down")) = "0.-00005" := by decide
  have hn : stampOf (w.block (line .fatal (-5)) []) = "0.-00005" := by decide
  have hlater : stampOf (w.block (line .info 5) []) = "0.000005" := by decide
  obtain ⟨seconds, fraction, hfields, hup⟩ := htell (line .info 5) []
  rw [hlater] at hfields
  refine ⟨w, line .info (-5), line .fatal (-5), line .info 5, rfl, rfl, rfl, hm, hn,
    hsame _ _ _ _ (hn.trans hm.symm), ?_, hlater, seconds, fraction, hfields, hup,
    (hup.digits (by decide)).1⟩
  rw [← hm]
  exact htell (line .info (-5)) (Text.bytes "up. down")

end Log

end KeyedColumns
