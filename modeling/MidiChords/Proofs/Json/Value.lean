import MidiChords.Json.Record
import MidiChords.Proofs.Json.Number
import MidiChords.Proofs.Json.Text

/-! # Values read back

A text that is put together from texts of values is read as the value that is put together from
them. The symbols of the parts stand one after another, and so do their values; since a word goes on
as long as it can, a part has to end before anything that does not belong to a word.

* `Json.Lexes`, `Json.Parses`: the symbols of a text in front of others, and their value;
* `Json.Encodes`: a text of a value;
* `Json.exists_encodes_string`, `Json.encodes_number`, `Json.encodes_array`, `Json.encodes_object`:
  the texts of the values that are written;
* `Json.Encodes.read?`: the value that is read back. -/

namespace MidiChords
namespace Json

variable {chars : List Char} {tokens : List Token} {value : Value} {number : NumberText} {c : Char}

/-! ## Symbols -/

/-- The text has these symbols, whatever follows that does not go on with a word. -/
def Lexes (chars : List Char) (tokens : List Token) : Prop :=
  ∀ rest : List Char, (∀ c ∈ rest.head?, isWordChar c = false) →
    tokens? (chars ++ rest) = (tokens? rest).map (tokens ++ ·)

/-- What begins a word is nothing else. -/
theorem eq_none_of_isWordChar (h : isWordChar c) :
    isSpace c = false ∧ c ≠ '"' ∧ Token.ofMark? c = none := by
  refine ⟨?_, ?_, ?_⟩
  · by_contra hspace
    simp only [Bool.not_eq_false, isSpace, Bool.or_eq_true, decide_eq_true_eq] at hspace
    rcases hspace with ((rfl | rfl) | rfl) | rfl
    all_goals contradiction
  · rintro rfl
    contradiction
  · unfold Token.ofMark?
    split
    all_goals first | rfl | contradiction

/-- A mark is nothing else. -/
theorem eq_false_of_ofMark? {mark : Token} (h : Token.ofMark? c = some mark) :
    isSpace c = false ∧ c ≠ '"' ∧ isWordChar c = false := by
  unfold Token.ofMark? at h
  split at h
  all_goals first | decide | contradiction

theorem exists_lexes_string (text : List Char) :
    ∃ pieces, decode? pieces = some text ∧ Lexes (stringChars text) [.string pieces] := by
  obtain ⟨pieces, hdecode, hscan⟩ := exists_pieces text
  refine ⟨pieces, hdecode, fun rest _ => ?_⟩
  have hscan' := hscan rest
  rw [stringChars, List.cons_append, List.cons_append, List.append_assoc, List.singleton_append,
    tokens?, if_neg (by decide), if_pos rfl]
  split
  · rename_i heq
    rw [hscan'] at heq
    cases heq
    rfl
  · rename_i heq
    rw [hscan'] at heq
    contradiction

namespace Lexes

theorem nil : Lexes [] [] := by
  intro rest _
  cases h : tokens? rest with
  | none => rw [List.nil_append, h, Option.map_none]
  | some tokens => rw [List.nil_append, h, Option.map_some, List.nil_append]

/-- Anything may follow a mark. -/
theorem cons {mark : Token} (h : Lexes chars tokens) (hmark : Token.ofMark? c = some mark) :
    Lexes (c :: chars) (mark :: tokens) := by
  intro rest hrest
  obtain ⟨hspace, hquote, -⟩ := eq_false_of_ofMark? hmark
  rw [List.cons_append, tokens?, hspace, if_neg Bool.false_ne_true, if_neg hquote, hmark]
  dsimp only
  rw [h rest hrest, Option.map_map]
  rfl

/-- Symbols follow each other if the second text does not go on with a word. -/
theorem append {chars' : List Char} {tokens' : List Token} (h : Lexes chars tokens)
    (h' : Lexes chars' tokens') (hhead : ∀ c ∈ chars'.head?, isWordChar c = false) :
    Lexes (chars ++ chars') (tokens ++ tokens') := by
  intro rest hrest
  have hnext : ∀ c ∈ (chars' ++ rest).head?, isWordChar c = false := by
    cases chars' with
    | nil => exact hrest
    | cons c chars' => exact hhead
  rw [List.append_assoc, h _ hnext, h' rest hrest, Option.map_map]
  congr 1
  funext tail
  rw [Function.comp_apply, List.append_assoc]

end Lexes

/-! ## Numbers -/

theorem isWordChar_of_isDigit (h : c.isDigit) : isWordChar c := by
  rw [isWordChar, Char.isAlphanum, h, Bool.or_true]
  rfl

theorem isWordChar_of_mem_fractionChars {fraction : Option (List Char)}
    (h : ∀ digits ∈ fraction, digits ≠ [] ∧ ∀ c ∈ digits, c.isDigit)
    (hc : c ∈ NumberText.fractionChars fraction) : isWordChar c := by
  match fraction with
  | none => contradiction
  | some digits =>
    cases hc with
    | head => decide
    | tail _ hc => exact isWordChar_of_isDigit ((h digits rfl).2 c hc)

theorem isWordChar_of_mem_exponentChars {exponent : Option (Bool × List Char)}
    (h : ∀ e ∈ exponent, e.2 ≠ [] ∧ ∀ c ∈ e.2, c.isDigit)
    (hc : c ∈ NumberText.exponentChars exponent) : isWordChar c := by
  match exponent with
  | none => contradiction
  | some (negative, digits) =>
    cases hc with
    | head => decide
    | tail _ hc =>
      cases hc with
      | head =>
        cases negative with
        | false => decide
        | true => decide
      | tail _ hc => exact isWordChar_of_isDigit ((h _ rfl).2 c hc)

theorem isWordChar_of_mem_chars (h : number.IsValid) (hc : c ∈ number.chars) : isWordChar c := by
  have hunsigned : ∀ c ∈ number.unsignedChars, isWordChar c := by
    intro c hc
    rw [NumberText.unsignedChars, List.mem_append, List.mem_append] at hc
    rcases hc with hwhole | hfraction | hexponent
    · exact isWordChar_of_isDigit (h.whole c hwhole)
    · exact isWordChar_of_mem_fractionChars h.fraction hfraction
    · exact isWordChar_of_mem_exponentChars h.exponent hexponent
  rw [NumberText.chars] at hc
  split at hc
  · cases hc with
    | head => decide
    | tail _ hc => exact hunsigned c hc
  · exact hunsigned c hc

/-- A number begins with its sign or a digit. -/
theorem exists_chars_eq (h : number.IsValid) :
    ∃ c tail, number.chars = c :: tail ∧ (c = '-' ∨ c.isDigit) := by
  rw [NumberText.chars]
  split
  · exact ⟨_, _, rfl, .inl rfl⟩
  · obtain ⟨c, tail, hwhole⟩ :=
      List.exists_cons_of_ne_nil (NumberText.ne_nil_of_isWhole h.isWhole)
    refine ⟨c, _, by rw [NumberText.unsignedChars, hwhole, List.cons_append], .inr ?_⟩
    exact h.whole c (hwhole ▸ List.mem_cons_self)

theorem ofWord?_chars (h : number.IsValid) :
    Token.ofWord? number.chars = some (.number number) := by
  obtain ⟨c, tail, hchars, hc⟩ := exists_chars_eq h
  have hword : ∀ {word : List Char} (first : Char), word.head? = some first → first ≠ '-' →
      first.isDigit = false → number.chars ≠ word := by
    rintro word first hfirst hminus hdigit rfl
    rw [hchars, List.head?_cons, Option.some_inj] at hfirst
    rw [← hfirst] at hminus hdigit
    rcases hc with hc | hc
    · exact hminus hc
    · rw [hc] at hdigit
      contradiction
  rw [Token.ofWord?, if_neg (hword 'n' rfl (by decide) rfl), if_neg (hword 't' rfl (by decide) rfl),
    if_neg (hword 'f' rfl (by decide) rfl), NumberText.read?_chars h, Option.map_some]

theorem lexes_number (h : number.IsValid) : Lexes number.chars [.number number] := by
  intro rest hrest
  obtain ⟨c, tail, hchars, -⟩ := exists_chars_eq h
  have hword : ∀ c ∈ number.chars, isWordChar c := fun c hc => isWordChar_of_mem_chars h hc
  have hofWord := ofWord?_chars h
  rw [hchars] at hword hofWord ⊢
  have hc := hword c List.mem_cons_self
  obtain ⟨hspace, hquote, hmark⟩ := eq_none_of_isWordChar hc
  have htail : ∀ c ∈ tail, isWordChar c := fun c hc => hword c (List.mem_cons_of_mem _ hc)
  obtain ⟨htake, hdrop⟩ := Text.takeWhile_append_of_head? htail hrest
  rw [List.cons_append, tokens?, hspace, if_neg Bool.false_ne_true, if_neg hquote, hmark]
  dsimp only
  rw [if_pos hc, htake, hdrop, hofWord]
  rfl

/-! ## Values -/

/-- The symbols make up this value, whatever it stands in and whatever follows. -/
structure Parses (tokens : List Token) (value : Value) : Prop where
  head : ∃ token tail, tokens = token :: tail ∧ token ≠ .closeArray
  ofTokensIn_eq : ∀ frames rest,
    Value.ofTokensIn frames (tokens ++ rest) = Value.complete value frames rest

theorem parses_string (pieces : List Piece) : Parses [.string pieces] (.string pieces) where
  head := ⟨_, _, rfl, Token.noConfusion⟩
  ofTokensIn_eq frames rest := by rw [List.singleton_append, Value.ofTokensIn]

theorem parses_number (number : NumberText) : Parses [.number number] (.number number) where
  head := ⟨_, _, rfl, Token.noConfusion⟩
  ofTokensIn_eq frames rest := by rw [List.singleton_append, Value.ofTokensIn]

section Separated

variable {α β : Type}

theorem intercalate_cons (mark : α) (first : List α) (rest : List (List α)) :
    [mark].intercalate (first :: rest) = first ++ rest.flatMap (mark :: ·) := by
  induction rest generalizing first with
  | nil => rw [List.intercalate_singleton, List.flatMap_nil, List.append_nil]
  | cons second rest ih =>
    rw [List.intercalate_cons_cons, ih, List.flatMap_cons, List.append_assoc]
    rfl

end Separated

/-- The further items of an array. -/
theorem complete_items {parts : List (List Token)} {values : List Value}
    (h : List.Forall₂ Parses parts values) (value : Value) (items : List Value)
    (frames : List Frame) (rest : List Token) :
    Value.complete value (.array items :: frames)
        (parts.flatMap (.comma :: ·) ++ .closeArray :: rest) =
      Value.complete (.array (items ++ value :: values)) frames rest := by
  induction h generalizing value items with
  | nil => rw [List.flatMap_nil, List.nil_append, Value.complete]
  | cons hfirst _ ih =>
    rw [List.flatMap_cons, List.append_assoc, List.cons_append, Value.complete,
      hfirst.ofTokensIn_eq, ih, List.append_assoc]
    rfl

theorem parses_array {parts : List (List Token)} {values : List Value}
    (h : List.Forall₂ Parses parts values) :
    Parses (.openArray :: [.comma].intercalate parts ++ [.closeArray]) (.array values) where
  head := ⟨_, _, rfl, Token.noConfusion⟩
  ofTokensIn_eq frames rest := by
    cases h with
    | nil =>
      rw [List.intercalate_nil]
      simp only [List.cons_append, List.nil_append]
      rw [Value.ofTokensIn]
    | cons hfirst hrest =>
      obtain ⟨token, tail, hhead, hne⟩ := hfirst.head
      rw [intercalate_cons]
      simp only [List.cons_append, List.append_assoc, List.nil_append]
      rw [Value.ofTokensIn, hfirst.ofTokensIn_eq, complete_items hrest]
      · rfl
      · intro rest heq
        rw [hhead] at heq
        exact hne (List.cons.inj heq).1

/-- The symbols of a member. -/
def memberTokens (part : List Piece × List Token) : List Token :=
  .string part.1 :: .colon :: part.2

/-- A member and its symbols. -/
def ParsesMember (part : List Piece × List Token) (member : List Piece × Value) : Prop :=
  part.1 = member.1 ∧ Parses part.2 member.2

/-- The further members of an object. -/
theorem complete_members {parts : List (List Piece × List Token)}
    {members : List (List Piece × Value)} (h : List.Forall₂ ParsesMember parts members)
    (value : Value) (before : List (List Piece × Value)) (name : List Piece) (frames : List Frame)
    (rest : List Token) :
    Value.complete value (.object before name :: frames)
        ((parts.map memberTokens).flatMap (.comma :: ·) ++ .closeObject :: rest) =
      Value.complete (.object (before ++ (name, value) :: members)) frames rest := by
  induction h generalizing value before name with
  | nil => rw [List.map_nil, List.flatMap_nil, List.nil_append, Value.complete]
  | cons hfirst _ ih =>
    rw [List.map_cons, List.flatMap_cons, List.append_assoc, memberTokens, List.cons_append,
      List.cons_append, List.cons_append, Value.complete, hfirst.2.ofTokensIn_eq, ih,
      List.append_assoc, hfirst.1]
    rfl

theorem parses_object {parts : List (List Piece × List Token)}
    {members : List (List Piece × Value)} (h : List.Forall₂ ParsesMember parts members) :
    Parses (.openObject :: [.comma].intercalate (parts.map memberTokens) ++ [.closeObject])
      (.object members) where
  head := ⟨_, _, rfl, Token.noConfusion⟩
  ofTokensIn_eq frames rest := by
    cases h with
    | nil =>
      rw [List.map_nil, List.intercalate_nil]
      simp only [List.cons_append, List.nil_append]
      rw [Value.ofTokensIn]
    | cons hfirst hrest =>
      rw [List.map_cons, intercalate_cons]
      simp only [memberTokens, List.cons_append, List.append_assoc, List.nil_append]
      rw [Value.ofTokensIn, hfirst.2.ofTokensIn_eq, complete_members hrest, hfirst.1]
      rfl

/-! ## Texts of values -/

/-- The text is one of the value. -/
def Encodes (chars : List Char) (value : Value) : Prop :=
  ∃ tokens, Lexes chars tokens ∧ Parses tokens value

theorem exists_encodes_string (text : List Char) :
    ∃ pieces, decode? pieces = some text ∧ Encodes (stringChars text) (.string pieces) := by
  obtain ⟨pieces, hdecode, hlexes⟩ := exists_lexes_string text
  exact ⟨pieces, hdecode, _, hlexes, parses_string pieces⟩

theorem encodes_number (h : number.IsValid) : Encodes number.chars (.number number) :=
  ⟨_, lexes_number h, parses_number number⟩

/-- The value that is read back from its text. -/
theorem Encodes.read? (h : Encodes chars value) : Value.read? chars = some value := by
  obtain ⟨tokens, hlexes, hparses⟩ := h
  have htokens := hlexes [] (by simp)
  have hvalue := hparses.ofTokensIn_eq [] []
  rw [List.append_nil, tokens?, Option.map_some, List.append_nil] at htokens
  rw [List.append_nil, Value.complete] at hvalue
  rw [Value.read?, htokens, Option.bind_some, Value.ofTokens?, hvalue]

/-- Texts between commas. -/
theorem lexes_intercalate {texts : List (List Char)} {parts : List (List Token)}
    (h : List.Forall₂ Lexes texts parts) :
    Lexes ([','].intercalate texts) ([.comma].intercalate parts) := by
  have hhead : ∀ texts : List (List Char),
      ∀ c ∈ (texts.flatMap (',' :: ·)).head?, isWordChar c = false := by
    intro texts
    cases texts with
    | nil => simp
    | cons text texts =>
      rintro c ⟨⟩
      decide
  have hrest : ∀ {texts : List (List Char)} {parts : List (List Token)},
      List.Forall₂ Lexes texts parts →
        Lexes (texts.flatMap (',' :: ·)) (parts.flatMap (.comma :: ·)) := by
    intro texts parts h
    induction h with
    | nil => exact Lexes.nil
    | cons hfirst _ ih => exact (hfirst.append ih (hhead _)).cons rfl
  cases h with
  | nil =>
    rw [List.intercalate_nil, List.intercalate_nil]
    exact Lexes.nil
  | cons hfirst h =>
    rw [intercalate_cons, intercalate_cons]
    exact hfirst.append (hrest h) (hhead _)

/-- A text in brackets. -/
theorem Lexes.enclose {opening closing : Char} {opened closed : Token} (h : Lexes chars tokens)
    (hopen : Token.ofMark? opening = some opened) (hclose : Token.ofMark? closing = some closed) :
    Lexes (opening :: chars ++ [closing]) (opened :: tokens ++ [closed]) := by
  refine (h.append (Lexes.nil.cons hclose) ?_).cons hopen
  rintro c ⟨⟩
  exact (eq_false_of_ofMark? hclose).2.2

theorem encodes_array {items : List (List Char)} {values : List Value}
    (h : List.Forall₂ Encodes items values) : Encodes (arrayChars items) (.array values) := by
  obtain ⟨parts, hlexes, hparses⟩ : ∃ parts, List.Forall₂ Lexes items parts ∧
      List.Forall₂ Parses parts values := by
    induction h with
    | nil => exact ⟨[], .nil, .nil⟩
    | cons hfirst _ ih =>
      obtain ⟨tokens, hlexes, hparses⟩ := hfirst
      obtain ⟨parts, hlexes', hparses'⟩ := ih
      exact ⟨tokens :: parts, .cons hlexes hlexes', .cons hparses hparses'⟩
  exact ⟨_, (lexes_intercalate hlexes).enclose rfl rfl, parses_array hparses⟩

/-! ## Objects -/

/-- A member by its name, the text of its value and the value. -/
abbrev Field : Type := String × List Char × Value

variable {fields : List Field} {members : List (List Piece × Value)}

/-- The members have the names and values of the fields. -/
def AreMembers (members : List (List Piece × Value)) (fields : List Field) : Prop :=
  List.Forall₂ (fun member field => decode? member.1 = some field.1.toList ∧ member.2 = field.2.2)
    members fields

theorem exists_members (h : ∀ field ∈ fields, Encodes field.2.1 field.2.2) :
    ∃ parts members, AreMembers members fields ∧ List.Forall₂ ParsesMember parts members ∧
      List.Forall₂ Lexes (fields.map fun field => stringChars field.1.toList ++ ':' :: field.2.1)
        (parts.map memberTokens) := by
  induction fields with
  | nil => exact ⟨[], [], .nil, .nil, .nil⟩
  | cons field fields ih =>
    obtain ⟨parts, members, hmembers, hparses, hlexes⟩ :=
      ih fun field hfield => h field (List.mem_cons_of_mem _ hfield)
    obtain ⟨tokens, hvalue, hparse⟩ := h field List.mem_cons_self
    obtain ⟨pieces, hdecode, hname⟩ := exists_lexes_string field.1.toList
    have hlex : Lexes (stringChars field.1.toList ++ ':' :: field.2.1)
        (memberTokens (pieces, tokens)) := by
      refine hname.append (hvalue.cons rfl) ?_
      rintro c ⟨⟩
      decide
    exact ⟨(pieces, tokens) :: parts, (pieces, field.2.2) :: members,
      .cons ⟨hdecode, rfl⟩ hmembers, .cons ⟨rfl, hparse⟩ hparses, .cons hlex hlexes⟩

theorem exists_encodes_object (h : ∀ field ∈ fields, Encodes field.2.1 field.2.2) :
    ∃ members, AreMembers members fields ∧
      Encodes (objectChars (fields.map fun field => (field.1, field.2.1))) (.object members) := by
  obtain ⟨parts, members, hmembers, hparses, hlexes⟩ := exists_members h
  have hobject := (lexes_intercalate hlexes).enclose
    (show Token.ofMark? '\x7b' = some .openObject from rfl)
    (show Token.ofMark? '\x7d' = some .closeObject from rfl)
  refine ⟨members, hmembers, _, ?_, parses_object hparses⟩
  rw [objectChars, List.map_map]
  exact hobject

/-- What is true of the results one by one. -/
theorem mapM_map_eq_some {α β γ : Type} {f : α → β} {g : α → γ} {h : β → Option γ} {l : List α}
    (heach : ∀ a ∈ l, h (f a) = some (g a)) : (l.map f).mapM h = some (l.map g) := by
  induction l with
  | nil => rfl
  | cons a l ih =>
    rw [List.map_cons, List.mapM_cons, heach a List.mem_cons_self,
      ih fun b hb => heach b (List.mem_cons_of_mem _ hb)]
    rfl

/-- A name that no other field has. -/
theorem filter_fields (hnodup : (fields.map Prod.fst).Nodup) {field : Field} (h : field ∈ fields) :
    fields.filter (fun other => other.1.toList = field.1.toList) = [field] := by
  induction fields with
  | nil => contradiction
  | cons other fields ih =>
    rw [List.map_cons, List.nodup_cons] at hnodup
    rcases List.mem_cons.mp h with rfl | h
    · rw [List.filter_cons_of_pos (by simp), List.filter_eq_nil_iff.mpr]
      intro other hother heq
      refine hnodup.1 ?_
      rw [← String.toList_injective (of_decide_eq_true heq)]
      exact List.mem_map_of_mem hother
    · rw [List.filter_cons_of_neg, ih hnodup.2 h]
      intro heq
      refine hnodup.1 ?_
      rw [String.toList_injective (of_decide_eq_true heq)]
      exact List.mem_map_of_mem h

theorem mapM_decode? (h : AreMembers members fields) :
    members.mapM (fun (name, value) => (decode? name).map (·, value)) =
      some (fields.map fun field => (field.1.toList, field.2.2)) := by
  induction h with
  | nil => rfl
  | @cons member field members fields hfirst _ ih =>
    obtain ⟨name, value⟩ := member
    obtain ⟨hname, rfl⟩ := hfirst
    rw [List.mapM_cons, ih]
    dsimp only
    rw [hname]
    rfl

/-- Every field of an object with different names is found by its name. -/
theorem fields?_object (hmembers : AreMembers members fields)
    (hnodup : (fields.map Prod.fst).Nodup) :
    Value.fields? (fields.map Prod.fst) (.object members) =
      some (fields.map fun field => field.2.2) := by
  simp only [Value.fields?, mapM_decode? hmembers]
  refine mapM_map_eq_some fun field hfield => ?_
  have hfilter : fields.filter ((fun found => decide (found.1 = field.1.toList)) ∘
      fun field => (field.1.toList, field.2.2)) = [field] := filter_fields hnodup hfield
  rw [List.filter_map, hfilter]
  rfl

end Json
end MidiChords
