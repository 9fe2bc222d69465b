import MidiChords.Proofs.Decimal.Grammar
import MidiChords.Proofs.Timeline.LineFormat

/-! # The grammar of lines

A line is read if it is some text between parentheses, a colon and a numeral. A numeral has no colon
in it, so that the last colon of the line is the one before the numeral, and the line cannot be cut
in two ways, whatever parentheses, colons and line breaks stand in the text.

* `Timeline.IsLine`, `Timeline.ArePieces`: the grammar, and the pitches of a text;
* `Timeline.readLine?_eq_some_iff`: the lines that are read, and what they are read as;
* `Timeline.IsReadAs`, `Timeline.readLine_isReadAs`: every line and what reading it comes to. -/

namespace MidiChords
namespace Timeline

variable {chars text inner number : List Char} {pitches : List String} {duration : Binary64}

/-! ## Lines -/

/-- A text between parentheses, a colon and a numeral. -/
structure IsLine (chars inner number : List Char) : Prop where
  eq : chars = '(' :: (inner ++ ')' :: ':' :: number)
  numeral : ∃ numeral, Numeral.IsNumeral number numeral

/-- The pitches are what stands between the slashes of a text. An empty text has none. -/
structure ArePieces (pitches : List String) (inner : List Char) : Prop where
  joined : ['/'].intercalate (pitches.map String.toList) = inner
  eq_nil_iff : pitches = [] ↔ inner = []
  not_mem : ∀ pitch ∈ pitches, '/' ∉ pitch.toList
  ne_single : pitches ≠ [""]

theorem betweenParens?_eq_some_iff :
    betweenParens? chars = some inner ↔ chars = '(' :: (inner ++ [')']) := by
  constructor
  · intro h
    unfold betweenParens? at h
    split at h
    · rename_i rest
      obtain ⟨hlast, heq⟩ := Option.ite_none_right_eq_some.mp h
      obtain rfl := Option.some.inj heq
      rw [List.dropLast_append_getLast? ')' hlast]
    · contradiction
  · rintro rfl
    simp [betweenParens?]

theorem arePieces_splitPitches (inner : List Char) : ArePieces (splitPitches inner) inner := by
  unfold splitPitches
  split
  · rename_i hempty
    rw [hempty]
    exact ⟨rfl, ⟨fun _ => rfl, fun _ => rfl⟩, by simp, by simp⟩
  · rename_i hne
    have hpieces : ((inner.splitOn '/').map String.ofList).map String.toList =
        inner.splitOn '/' := by
      simp
    have hjoined : ['/'].intercalate (inner.splitOn '/') = inner := List.intercalate_splitOn '/'
    refine ⟨by rw [hpieces, hjoined], iff_of_false ?_ hne, ?_, ?_⟩
    · rw [List.map_eq_nil_iff]
      exact List.splitOn_ne_nil '/' inner
    · intro pitch hpitch
      obtain ⟨piece, hpiece, rfl⟩ := List.mem_map.mp hpitch
      rw [String.toList_ofList]
      exact Text.not_mem_of_mem_splitOn hpiece
    · intro hsingle
      apply hne
      rw [hsingle] at hpieces
      rw [← hjoined, ← hpieces]
      rfl

/-- A numeral has no colon in it, so the line is cut at the colon before it. -/
theorem splitAtLast_of_isLine (h : IsLine chars inner number) :
    Text.splitAtLast ':' chars = some ('(' :: (inner ++ [')']), number) := by
  obtain ⟨rfl, numeral, hnumeral⟩ := h
  have hcut := @Text.splitAtLast_append_cons ':' ('(' :: (inner ++ [')'])) number
    hnumeral.not_mem_colon
  simpa using hcut

theorem IsLine.unique {inner' number' : List Char} (h : IsLine chars inner number)
    (h' : IsLine chars inner' number') : inner' = inner ∧ number' = number := by
  have hcut := splitAtLast_of_isLine h'
  rw [splitAtLast_of_isLine h] at hcut
  simpa [eq_comm] using hcut

theorem readLine?_eq_some_iff : readLine? chars = some (pitches, duration) ↔
    ∃ inner number, IsLine (trimLine chars) inner number ∧ pitches = splitPitches inner ∧
      Binary64.read? number = some duration := by
  constructor
  · intro h
    simp only [readLine?, Option.bind_eq_bind, Option.pure_def, Option.bind_eq_some_iff,
      Option.some.injEq, Prod.mk.injEq] at h
    obtain ⟨⟨field, number⟩, hcut, inner, hinner, _, hread, rfl, rfl⟩ := h
    obtain ⟨hchars, -⟩ := Text.splitAtLast_eq_some hcut
    obtain rfl := betweenParens?_eq_some_iff.mp hinner
    obtain ⟨numeral, hnumeral, -⟩ := Option.map_eq_some_iff.mp hread
    refine ⟨inner, number, ⟨?_, numeral, Numeral.read?_eq_some_iff.mp hnumeral⟩, rfl, hread⟩
    simpa using hchars
  · rintro ⟨inner, number, hline, rfl, hread⟩
    have hinner := betweenParens?_eq_some_iff.mpr (Eq.refl ('(' :: (inner ++ [')'])))
    simp [readLine?, splitAtLast_of_isLine hline, hinner, hread]

/-! ## Reading -/

/-- What reading a line comes to that has the given text and then nothing but line breaks. -/
structure IsReadAs (line : String) (text : List Char) : Prop where
  /-- Exactly the lines of the grammar are read. -/
  ok_iff : (∃ result, readLine line = .ok result) ↔ ∃ inner number, IsLine text inner number
  /-- A line is one in one way only. -/
  unique : ∀ inner number inner' number', IsLine text inner number → IsLine text inner' number' →
    inner' = inner ∧ number' = number
  /-- It has the pieces between the parentheses for pitches and the numeral for a duration. -/
  result : ∀ inner number, IsLine text inner number → ∃ pitches numeral,
    readLine line = .ok (pitches, .ofNumeral numeral) ∧ Numeral.IsNumeral number numeral ∧
      ArePieces pitches inner
  /-- Written again with any start and number of places, the pitches are read back. -/
  again : ∀ pitches duration, readLine line = .ok (pitches, duration) → ∀ start decimals,
    readLine (String.ofList (Event.lineChars decimals ⟨start, pitches, duration⟩)) =
      .ok (pitches, duration.roundTo decimals)
  /-- Every other line is refused with its text. -/
  malformed : (¬ ∃ inner number, IsLine text inner number) →
    readLine line = .error (.malformedLine text)

theorem readLine_eq_ok_iff {line : String} {result : List String × Binary64} :
    readLine line = .ok result ↔ readLine? line.toList = some result := by
  rw [readLine]
  cases readLine? line.toList with
  | some other => simp [pure, Except.pure]
  | none => simp

theorem exists_readLine_of_isLine {line : String} (h : IsLine (trimLine line.toList) inner number) :
    ∃ numeral, readLine line = .ok (splitPitches inner, .ofNumeral numeral) ∧
      Numeral.IsNumeral number numeral := by
  obtain ⟨numeral, hnumeral⟩ := h.numeral
  refine ⟨numeral, readLine_eq_ok_iff.mpr (readLine?_eq_some_iff.mpr ⟨inner, number, h, rfl, ?_⟩),
    hnumeral⟩
  rw [Binary64.read?, Numeral.read?_eq_some_iff.mpr hnumeral, Option.map_some]

/-- Pieces have no slash in them and are not a single empty one, and so they are read back. -/
theorem ArePieces.readLine_again (h : ArePieces pitches inner) (start duration : Binary64)
    (decimals : Nat) :
    readLine (String.ofList (Event.lineChars decimals ⟨start, pitches, duration⟩)) =
      .ok (pitches, duration.roundTo decimals) := by
  rw [readLine_eq_ok_iff, String.toList_ofList, readLine?_lineChars]
  have hpitches := (splitPitches_eq_iff pitches).mpr ⟨h.not_mem, h.ne_single⟩
  rw [hpitches]

theorem isReadAs_trimLine (line : String) : IsReadAs line (trimLine line.toList) := by
  have hlines : ∀ {pitches duration}, readLine line = .ok (pitches, duration) →
      ∃ inner number, IsLine (trimLine line.toList) inner number ∧ pitches = splitPitches inner := by
    intro pitches duration h
    obtain ⟨inner, number, hline, hpitches, -⟩ := readLine?_eq_some_iff.mp (readLine_eq_ok_iff.mp h)
    exact ⟨inner, number, hline, hpitches⟩
  refine ⟨⟨?_, ?_⟩, fun _ _ _ _ h h' => h.unique h', ?_, ?_, ?_⟩
  · rintro ⟨⟨pitches, duration⟩, h⟩
    obtain ⟨inner, number, hline, -⟩ := hlines h
    exact ⟨inner, number, hline⟩
  · rintro ⟨inner, number, hline⟩
    obtain ⟨numeral, hread, -⟩ := exists_readLine_of_isLine hline
    exact ⟨_, hread⟩
  · intro inner number hline
    obtain ⟨numeral, hread, hnumeral⟩ := exists_readLine_of_isLine hline
    exact ⟨_, numeral, hread, hnumeral, arePieces_splitPitches inner⟩
  · intro pitches duration h start decimals
    obtain ⟨inner, number, -, rfl⟩ := hlines h
    exact (arePieces_splitPitches inner).readLine_again start duration decimals
  · intro hnone
    rw [readLine]
    split
    · rename_i result hresult
      obtain ⟨inner, number, hline, -⟩ := hlines (readLine_eq_ok_iff.mpr hresult)
      exact absurd ⟨inner, number, hline⟩ hnone
    · rfl

/-- **A line is read exactly if it is one of the grammar**: every line is a text that does not end
with a line break and then line breaks, and the text decides what it is read as. -/
theorem readLine_isReadAs (line : String) : ∃ text breaks, line.toList = text ++ breaks ∧
    (∀ c ∈ breaks, c = '\r' ∨ c = '\n') ∧ (∀ c ∈ text.getLast?, c ≠ '\r' ∧ c ≠ '\n') ∧
      IsReadAs line text := by
  obtain ⟨breaks, hline, hbreaks, hlast⟩ := Text.trimEnd_eq_iff.mp (Eq.refl (trimLine line.toList))
  refine ⟨trimLine line.toList, breaks, hline, fun c hc => of_decide_eq_true (hbreaks c hc),
    fun c hc => ?_, isReadAs_trimLine line⟩
  have hnot := of_decide_eq_false (hlast c hc)
  rwa [not_or] at hnot

/-- A text with colons, parentheses and a line break in it, and a line that ends in no numeral. -/
example : readLine "((a):1\r\n/b):+.5E1\r\n" = .ok (["(a):1\r\n", "b"], .ofNat 5) ∧
    readLine "(a):1:2\n" = .error (.malformedLine "(a):1:2".toList) := by
  decide +kernel

end Timeline
end MidiChords
