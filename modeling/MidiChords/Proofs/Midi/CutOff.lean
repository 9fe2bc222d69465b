import Mathlib.Data.List.Infix
import MidiChords.Midi.File
import MidiChords.Proofs.Except

/-! # Files that are cut off

What is read from the first bytes of a file is what is read from all of it, up to the place where it
was cut off. Only the last event before that place can be another one, and then it is idle: it
neither plays nor sets the tempo.

* `Midi.CutOff`: a list whose last entry may be cut off;
* `Midi.Track.IsCut`, `Midi.Track.readFrom_isCut`: the events of a track that was cut off;
* `Midi.Chunk.cutOff_readAll`: the chunks of bytes that were cut off;
* `Midi.File.read_of_prefix`: the header and the tracks of a file that was cut off. -/

namespace MidiChords
namespace Midi

/-- A list that ends earlier, maybe inside an entry: that one is related to what it would have been,
and those before it are whole. -/
inductive CutOff {α : Type} (R : α → α → Prop) : List α → List α → Prop
  | nil (full : List α) : CutOff R [] full
  | last {a b : α} (h : R a b) (full : List α) : CutOff R [a] (b :: full)
  | cons (a : α) {short full : List α} (h : CutOff R short full) : CutOff R (a :: short) (a :: full)

namespace CutOff

variable {α β : Type} {R : α → α → Prop} {short full : List α}

theorem map {S : β → β → Prop} {f : α → β} (h : CutOff R short full)
    (hR : ∀ a b, R a b → S (f a) (f b)) : CutOff S (short.map f) (full.map f) := by
  induction h with
  | nil full => exact .nil _
  | last h full => exact .last (hR _ _ h) _
  | cons a _ ih => exact .cons _ ih

theorem filter {p : α → Bool} (h : CutOff R short full) (hR : ∀ a b, R a b → p a = p b) :
    CutOff R (short.filter p) (full.filter p) := by
  induction h with
  | nil full => exact .nil _
  | @last a b h full =>
    cases hp : p a with
    | false => simpa [hp] using CutOff.nil _
    | true => simpa [hp, hR _ _ h ▸ hp] using CutOff.last h _
  | cons a _ ih =>
    cases hp : p a with
    | false => simpa [hp] using ih
    | true => simpa [hp] using ih.cons a

theorem takeWhile {p : α → Bool} (h : CutOff R short full) (hR : ∀ a b, R a b → p a → p b) :
    CutOff R (short.takeWhile p) (full.takeWhile p) := by
  induction h with
  | nil full => exact .nil _
  | @last a b h full =>
    cases hp : p a with
    | false => simpa [hp] using CutOff.nil _
    | true => simpa [hp, hR _ _ h hp] using CutOff.last h _
  | cons a _ ih =>
    cases hp : p a with
    | false => simpa [hp] using CutOff.nil _
    | true => simpa [hp] using ih.cons a

theorem dropWhile {p : α → Bool} (h : CutOff R short full) (hR : ∀ a b, R a b → p a = p b) :
    CutOff R (short.dropWhile p) (full.dropWhile p) := by
  induction h with
  | nil full => exact .nil _
  | @last a b h full =>
    cases hp : p a with
    | false => simpa [hp, hR _ _ h ▸ hp] using CutOff.last h _
    | true => simpa [hp] using CutOff.nil _
  | @cons a short full hcut ih =>
    cases hp : p a with
    | false => simpa [hp] using hcut.cons a
    | true => simpa [hp] using ih

theorem find? {p : α → Bool} (h : CutOff R short full) (hR : ∀ a b, R a b → p a = p b)
    (hrefl : ∀ a, R a a) {a : α} (ha : short.find? p = some a) :
    ∃ b, full.find? p = some b ∧ R a b := by
  induction h with
  | nil full => contradiction
  | @last c d h full =>
    cases hp : p c with
    | false => simp [hp] at ha
    | true =>
      obtain rfl : c = a := by simpa [hp] using ha
      exact ⟨d, by simp [hR _ _ h ▸ hp], h⟩
  | @cons c short full _ ih =>
    cases hp : p c with
    | false => simpa [hp] using ih (by simpa [hp] using ha)
    | true =>
      obtain rfl : c = a := by simpa [hp] using ha
      exact ⟨c, by simp [hp], hrefl c⟩

end CutOff

/-! ## Numbers and data -/

variable {short bytes : List UInt8}

/-- A number is the same in bytes that were cut off, or it was cut off itself. -/
theorem variableLength_go_of_prefix (h : short <+: bytes) (left n : Nat) :
    (variableLength.go left n short).2 = [] ∨
      (variableLength.go left n short).1 = (variableLength.go left n bytes).1 ∧
        (variableLength.go left n short).2 <+: (variableLength.go left n bytes).2 := by
  induction left generalizing n short bytes with
  | zero => exact .inr ⟨rfl, h⟩
  | succ left ih =>
    cases short with
    | nil => exact .inl rfl
    | cons byte short =>
      obtain ⟨more, rfl⟩ := h
      rw [List.cons_append, variableLength.go, variableLength.go]
      split
      · exact .inr ⟨rfl, List.prefix_append short more⟩
      · exact ih (List.prefix_append short more) _

theorem variableLength_of_prefix (h : short <+: bytes) : (variableLength short).2 = [] ∨
    (variableLength short).1 = (variableLength bytes).1 ∧
      (variableLength short).2 <+: (variableLength bytes).2 :=
  variableLength_go_of_prefix h 4 0

/-- What is read from bytes that were cut off: the same, or only the beginning of it, and then
nothing is left. -/
inductive PartRead : List UInt8 × List UInt8 → List UInt8 × List UInt8 → Prop
  | whole (data : List UInt8) {left rest : List UInt8} (h : left <+: rest) :
      PartRead (data, left) (data, rest)
  | part {part data : List UInt8} (h : part <+: data) (rest : List UInt8) :
      PartRead (part, []) (data, rest)

theorem partRead_splitAt (h : short <+: bytes) (n : Nat) :
    PartRead (short.splitAt n) (bytes.splitAt n) := by
  obtain ⟨more, rfl⟩ := h
  rw [List.splitAt_eq, List.splitAt_eq]
  rcases Nat.le_total n short.length with hn | hn
  · rw [List.take_append_of_le_length hn, List.drop_append_of_le_length hn]
    exact .whole _ (List.prefix_append ..)
  · rw [List.take_of_length_le hn, List.drop_eq_nil_of_le hn, List.take_append,
      List.take_of_length_le hn]
    exact .part (List.prefix_append ..) _

namespace Event

theorem partRead_sizedData (h : short <+: bytes) :
    PartRead (sizedData short) (sizedData bytes) := by
  unfold sizedData
  rcases variableLength_of_prefix h with hnil | ⟨hlength, hrest⟩
  · simp only [hnil, List.splitAt_eq, List.take_nil, List.drop_nil]
    exact .part List.nil_prefix _
  · dsimp only
    rw [hlength]
    exact partRead_splitAt hrest _

/-! ## Events -/

/-- An event that neither plays nor sets the tempo. -/
def IsIdle : Event → Prop
  | .channel .. | .tempo _ => False
  | _ => True

end Event

namespace ChannelMessage

variable {message : ChannelMessage} {left : List UInt8}

theorem read1?_append {make : SevenBits → ChannelMessage}
    (h : read1? make short = some (message, left)) (more : List UInt8) :
    read1? make (short ++ more) = some (message, left ++ more) := by
  cases short with
  | nil => contradiction
  | cons a short =>
    simp only [read1?, Option.map_eq_some_iff, Prod.mk.injEq, List.cons_append] at h ⊢
    obtain ⟨value, hvalue, rfl, rfl⟩ := h
    exact ⟨value, hvalue, rfl, rfl⟩

theorem read2?_append {make : SevenBits → SevenBits → ChannelMessage}
    (h : read2? make short = some (message, left)) (more : List UInt8) :
    read2? make (short ++ more) = some (message, left ++ more) := by
  match short with
  | [] | [_] => contradiction
  | a :: b :: short =>
    simp only [read2?, Option.bind_eq_some_iff, Option.map_eq_some_iff, Prod.mk.injEq,
      List.cons_append] at h ⊢
    obtain ⟨first, hfirst, second, hsecond, rfl, rfl⟩ := h
    exact ⟨first, hfirst, second, hsecond, rfl, rfl⟩

/-- A message that is read does not depend on what follows it. -/
theorem read?_append {status : UInt8} (h : read? status short = some (message, left))
    (more : List UInt8) : read? status (short ++ more) = some (message, left ++ more) := by
  unfold read? at h ⊢
  split at h
  all_goals first
    | exact read2?_append h more
    | exact read1?_append h more
    | contradiction

end ChannelMessage

namespace Event

variable {running status : Option UInt8} {event : Event} {left : List UInt8}

/-- A meta event whose data was cut off is the same, or it is idle. -/
theorem ofMeta?_of_prefix {kind : UInt8} {part data : List UInt8} (h : part <+: data)
    (hpart : ofMeta? kind part = some event) : ofMeta? kind data = some event ∨ event.IsIdle := by
  unfold ofMeta? at hpart
  split at hpart
  · cases hpart
    exact .inr trivial
  · rename_i hname
    split at hpart
    · rename_i htempo
      cases hpart
      obtain ⟨more, rfl⟩ := h
      have hlength : 3 ≤ (part ++ more).length := by
        rw [List.length_append]
        omega
      rw [ofMeta?, if_neg hname, if_pos ⟨htempo.1, hlength⟩,
        List.take_append_of_le_length htempo.2]
      exact .inl rfl
    · split at hpart
      · contradiction
      · split at hpart
        · contradiction
        · cases hpart
          exact .inr trivial

/-- An event is the same in bytes that were cut off, or it is idle and nothing is left. -/
theorem read?_of_prefix (h : short <+: bytes)
    (hread : read? running short = some (event, status, left)) :
    (∃ rest, read? running bytes = some (event, status, rest) ∧ left <+: rest) ∨
      left = [] ∧ event.IsIdle := by
  obtain ⟨more, rfl⟩ := h
  obtain ⟨byte, tail, rfl⟩ : ∃ byte tail, short = byte :: tail := by
    cases short with
    | nil => contradiction
    | cons byte tail => exact ⟨byte, tail, rfl⟩
  rw [List.cons_append]
  by_cases hdata : byte < 0x80
  · -- a message with running status
    simp only [read?, if_pos hdata] at hread ⊢
    simp only [Option.bind_eq_some_iff, Option.map_eq_some_iff, Prod.mk.injEq] at hread
    obtain ⟨running, rfl, ⟨message, rest⟩, hmessage, rfl, rfl, rfl⟩ := hread
    have hfull := ChannelMessage.read?_append hmessage more
    rw [List.cons_append] at hfull
    refine .inl ⟨rest ++ more, ?_, List.prefix_append ..⟩
    rw [Option.bind_some, hfull, Option.map_some]
  by_cases hstatus : byte < 0xf0
  · -- a message with its status
    simp only [read?, if_neg hdata, if_pos hstatus] at hread ⊢
    simp only [Option.map_eq_some_iff, Prod.mk.injEq] at hread
    obtain ⟨⟨message, rest⟩, hmessage, rfl, rfl, rfl⟩ := hread
    refine .inl ⟨rest ++ more, ?_, List.prefix_append ..⟩
    rw [ChannelMessage.read?_append hmessage more, Option.map_some]
  by_cases hmeta : byte = 0xff
  · simp only [read?, if_neg hdata, if_neg hstatus, if_pos hmeta] at hread ⊢
    cases tail with
    | nil => contradiction
    | cons kind tail =>
      have hpart := partRead_sizedData (List.prefix_append tail more)
      rw [List.cons_append]
      dsimp only at hread ⊢
      generalize sizedData tail = cut at hread hpart
      generalize sizedData (tail ++ more) = whole at hpart ⊢
      simp only [Option.map_eq_some_iff, Prod.mk.injEq] at hread
      obtain ⟨event, hevent, rfl, rfl, rfl⟩ := hread
      cases hpart with
      | whole data hprefix =>
        refine .inl ⟨_, ?_, hprefix⟩
        rw [hevent, Option.map_some]
      | part hprefix rest =>
        rcases ofMeta?_of_prefix hprefix hevent with hsame | hidle
        · refine .inl ⟨rest, ?_, List.nil_prefix⟩
          rw [hsame, Option.map_some]
        · exact .inr ⟨rfl, hidle⟩
  by_cases hsystem : byte = 0xf0 ∨ byte = 0xf7
  · simp only [read?, if_neg hdata, if_neg hstatus, if_neg hmeta, if_pos hsystem] at hread ⊢
    have hpart := partRead_sizedData (List.prefix_append tail more)
    generalize sizedData tail = cut at hread hpart
    generalize sizedData (tail ++ more) = whole at hpart ⊢
    simp only [Option.some.injEq, Prod.mk.injEq] at hread
    obtain ⟨rfl, rfl, rfl⟩ := hread
    cases hpart with
    | whole data hprefix => exact .inl ⟨_, rfl, hprefix⟩
    | part hprefix rest =>
      refine .inr ⟨rfl, ?_⟩
      split
      · trivial
      · trivial
  · simp only [read?, if_neg hdata, if_neg hstatus, if_neg hmeta, if_neg hsystem] at hread
    contradiction

end Event

/-! ## Tracks -/

namespace Track

/-- The events of a track that was cut off: the first ones of all, and idle ones after them. -/
def IsCut (short full : List TimedEvent) : Prop :=
  ∃ events idle rest, short = events ++ idle ∧ full = events ++ rest ∧
    ∀ event ∈ idle, event.event.IsIdle

theorem isCut_nil (full : List TimedEvent) : IsCut [] full :=
  ⟨[], [], full, rfl, rfl, List.forall_mem_nil _⟩

theorem IsCut.cons {short full : List TimedEvent} (event : TimedEvent) (h : IsCut short full) :
    IsCut (event :: short) (event :: full) := by
  obtain ⟨events, idle, rest, rfl, rfl, hidle⟩ := h
  exact ⟨event :: events, idle, rest, rfl, rfl, hidle⟩

theorem isCut_idle {event : TimedEvent} (h : event.event.IsIdle) (full : List TimedEvent) :
    IsCut [event] full :=
  ⟨[], [event], full, rfl, rfl, by simpa using h⟩

theorem readFrom_isCut (running : Option UInt8) (h : short <+: bytes) :
    IsCut (readFrom running short) (readFrom running bytes) := by
  induction hlength : short.length using Nat.strongRecOn generalizing running short bytes with
  | ind length ih =>
    subst hlength
    cases hread : Event.read? running (variableLength short).2 with
    | none =>
      rw [readFrom_of_eq_none hread]
      exact isCut_nil _
    | some next =>
      obtain ⟨event, status, left⟩ := next
      have hleft : left.length < short.length :=
        Nat.lt_of_lt_of_le (Event.read?_length hread) (variableLength_length short)
      rw [readFrom_of_eq_some hread]
      rcases variableLength_of_prefix h with hnil | ⟨hdelta, hrest⟩
      · rw [hnil] at hread
        contradiction
      · rcases Event.read?_of_prefix hrest hread with ⟨rest, hfull, hprefix⟩ | ⟨rfl, hidle⟩
        · rw [readFrom_of_eq_some hfull, hdelta]
          exact (ih _ hleft status hprefix rfl).cons _
        · rw [readFrom_nil]
          exact isCut_idle hidle _

end Track

/-! ## Chunks -/

/-- A field inside the bytes that are there is the same in all of them. -/
theorem take_drop_append {i j : Nat} (h : i + j ≤ short.length) (more : List UInt8) :
    ((short ++ more).drop i).take j = (short.drop i).take j := by
  rw [List.drop_append_of_le_length (by omega),
    List.take_append_of_le_length (by rw [List.length_drop]; omega)]

namespace Chunk

/-- A chunk whose data was cut off. -/
def IsCut (part chunk : Chunk) : Prop := part.id = chunk.id ∧ part.data <+: chunk.data

theorem IsCut.refl (chunk : Chunk) : chunk.IsCut chunk := ⟨rfl, List.prefix_refl _⟩

theorem IsCut.isHeader_eq {part chunk : Chunk} (h : part.IsCut chunk) :
    part.isHeader = chunk.isHeader := by
  rw [isHeader, isHeader, h.1]

theorem IsCut.isTrack_eq {part chunk : Chunk} (h : part.IsCut chunk) :
    part.isTrack = chunk.isTrack := by
  rw [isTrack, isTrack, h.1]

variable {layout : ChunkLayout}

theorem read?_of_prefix {part : Chunk} {left : List UInt8} (h : short <+: bytes)
    (hread : read? layout short = some (part, left)) :
    ∃ chunk rest, read? layout bytes = some (chunk, rest) ∧ part.id = chunk.id ∧
      PartRead (part.data, left) (chunk.data, rest) := by
  obtain ⟨more, rfl⟩ := h
  have hsize : ¬ short.length < headSize := fun hsize => by
    rw [read?, if_pos hsize] at hread
    contradiction
  have hlonger : ¬ (short ++ more).length < headSize := by
    rw [List.length_append]
    omega
  have h8 : headSize ≤ short.length := Nat.le_of_not_lt hsize
  have hid : (short ++ more).take 4 = short.take 4 :=
    List.take_append_of_le_length (Nat.le_trans (by decide) h8)
  have hlength := take_drop_append (i := 4) (j := 4) h8 more
  have hbody : (short ++ more).drop headSize = short.drop headSize ++ more :=
    List.drop_append_of_le_length h8
  simp only [read?, if_neg hsize, Option.some.injEq, Prod.mk.injEq] at hread
  simp only [read?, if_neg hlonger, hid, hlength, hbody]
  obtain ⟨rfl, rfl⟩ := hread
  refine ⟨_, _, rfl, rfl, ?_⟩
  generalize layout.lengthOf ((short.drop 4).take 4) = length
  generalize short.drop headSize = body
  generalize (if layout.padded then length % 2 else 0) = padding
  rcases Nat.le_total length body.length with hdata | hdata
  · rw [List.take_append_of_le_length hdata, List.drop_append]
    exact .whole _ (List.prefix_append ..)
  · rw [List.drop_eq_nil_of_le (Nat.le_add_right_of_le hdata), List.take_append]
    refine .part ?_ _
    exact List.prefix_append ..

theorem readAll_nil (layout : ChunkLayout) : readAll layout [] = ([], []) :=
  readAll_of_eq_none rfl

theorem cutOff_readAll (layout : ChunkLayout) (h : short <+: bytes) :
    CutOff IsCut (readAll layout short).1 (readAll layout bytes).1 := by
  induction hlength : short.length using Nat.strongRecOn generalizing short bytes with
  | ind length ih =>
    subst hlength
    cases hread : read? layout short with
    | none =>
      rw [readAll_of_eq_none hread]
      exact .nil _
    | some next =>
      obtain ⟨part, left⟩ := next
      obtain ⟨chunk, rest, hfull, hid, hpart⟩ := read?_of_prefix h hread
      have hrest (hleft : left <+: rest) := ih _ (read?_length hread) hleft rfl
      rw [readAll_of_eq_some hread, readAll_of_eq_some hfull]
      obtain ⟨id, data⟩ := part
      obtain ⟨id', data'⟩ := chunk
      subst hid
      cases hpart with
      | whole data hprefix => exact (hrest hprefix).cons _
      | part hprefix rest =>
        rw [readAll_nil]
        exact .last ⟨rfl, hprefix⟩ _

end Chunk

/-! ## Files -/

theorem Header.read?_of_prefix {header : Header} (h : short <+: bytes)
    (hread : Header.read? short = some header) : Header.read? bytes = some header := by
  obtain ⟨more, rfl⟩ := h
  have hsize : ¬ short.length < 6 := fun hsize => by
    rw [read?, if_pos hsize] at hread
    contradiction
  have hlonger : ¬ (short ++ more).length < 6 := by
    rw [List.length_append]
    omega
  have hformat : ((short ++ more).drop 0).take 2 = (short.drop 0).take 2 :=
    take_drop_append (by omega) more
  have hdivision : ((short ++ more).drop 4).take 2 = (short.drop 4).take 2 :=
    take_drop_append (by omega) more
  rw [List.drop_zero, List.drop_zero] at hformat
  rw [read?, if_neg hsize] at hread
  rw [read?, if_neg hlonger, hformat, hdivision, hread]

/-- The tracks of chunks that were cut off. -/
theorem cutOff_tracksOf {cut chunks : List Chunk} (h : CutOff Chunk.IsCut cut chunks) :
    CutOff Track.IsCut (tracksOf cut) (tracksOf chunks) := by
  have hsound := h.takeWhile (p := fun chunk => !chunk.isHeader || (Header.read? chunk.data).isSome)
    fun part chunk hpart hsound => by
      simp only [Bool.or_eq_true, Option.isSome_iff_exists, ← hpart.isHeader_eq] at hsound ⊢
      exact hsound.imp_right fun ⟨header, hheader⟩ =>
        ⟨header, Header.read?_of_prefix hpart.2 hheader⟩
  have htracks := hsound.filter (p := (·.isTrack)) fun _ _ hpart => hpart.isTrack_eq
  exact htracks.map fun part chunk hpart => Track.readFrom_isCut none hpart.2

theorem File.ofChunks_of_cutOff {cut chunks : List Chunk} {left : List UInt8} {short : File}
    (h : CutOff Chunk.IsCut cut chunks) (hfile : File.ofChunks cut left = .ok short)
    (rest : List UInt8) :
    ∃ full, File.ofChunks chunks rest = .ok full ∧ short.header = full.header ∧
      CutOff Track.IsCut short.tracks full.tracks := by
  have hdrop := h.dropWhile (p := fun chunk => !chunk.isHeader && !chunk.isTrack)
    fun _ _ hpart => by rw [hpart.isHeader_eq, hpart.isTrack_eq]
  unfold File.ofChunks at hfile ⊢
  generalize cut.dropWhile _ = cut at hfile hdrop
  generalize chunks.dropWhile _ = chunks at hdrop ⊢
  cases hdrop with
  | nil full => contradiction
  | @last part chunk hpart chunks =>
    -- the header itself is cut off: there is no track before the cut
    dsimp only at hfile ⊢
    rw [← hpart.isTrack_eq]
    split at hfile
    · contradiction
    · rename_i htrack
      split at hfile
      · contradiction
      · rename_i header hheader
        cases hfile
        rw [if_neg htrack, Header.read?_of_prefix hpart.2 hheader]
        exact ⟨_, rfl, rfl, .nil _⟩
  | @cons chunk cut chunks hcut =>
    dsimp only at hfile ⊢
    split at hfile
    · contradiction
    · rename_i htrack
      split at hfile
      · contradiction
      · rename_i header hheader
        cases hfile
        rw [if_neg htrack]
        exact ⟨_, rfl, rfl, cutOff_tracksOf hcut⟩

/-- A tag at the beginning of bytes that were cut off. -/
theorem take_eq_of_isPrefix {tag : List UInt8} {n : Nat} (h : short <+: bytes)
    (htag : short.take n = tag) (hn : n ≤ tag.length) : bytes.take n = tag := by
  obtain ⟨more, rfl⟩ := h
  have hlength := congrArg List.length htag
  rw [List.length_take] at hlength
  rw [List.take_append_of_le_length (by omega), htag]

theorem unwrapRiff_of_prefix {content : List UInt8} (h : short <+: bytes)
    (hcontent : unwrapRiff short = .ok content) :
    ∃ whole, unwrapRiff bytes = .ok whole ∧ content <+: whole := by
  unfold unwrapRiff at hcontent
  split at hcontent
  · contradiction
  · rename_i id data left hread
    obtain ⟨⟨id', data'⟩, rest, hfull, -, hpart⟩ := Chunk.read?_of_prefix h hread
    have hdata : data <+: data' := by
      cases hpart with
      | whole => exact List.prefix_refl _
      | part hprefix => exact hprefix
    split at hcontent
    · contradiction
    · rename_i hsize
      split at hcontent
      · contradiction
      · rename_i hform
        split at hcontent
        · contradiction
        · rename_i part hfind
          cases hcontent
          have hchunks := Chunk.cutOff_readAll .riff (List.IsPrefix.drop hdata 4)
          obtain ⟨chunk, hwhole, hcut⟩ := hchunks.find? (p := (·.id = asciiBytes "data"))
            (fun _ _ hpart => by rw [hpart.1]) Chunk.IsCut.refl hfind
          refine ⟨chunk.data, ?_, hcut.2⟩
          have hsize' : ¬ data'.length < 4 := by
            have := List.IsPrefix.length_le hdata
            omega
          have hform' : ¬ data'.take 4 ≠ asciiBytes "RMID" :=
            not_not.mpr (take_eq_of_isPrefix hdata (not_not.mp hform) (by decide))
          simp only [unwrapRiff, hfull, if_neg hsize', if_neg hform', hwhole]
          rfl

theorem unwrap_of_prefix {content : List UInt8} (h : short <+: bytes)
    (hcontent : unwrap short = .ok content) :
    ∃ whole, unwrap bytes = .ok whole ∧ content <+: whole := by
  unfold unwrap at hcontent ⊢
  split at hcontent
  · rename_i hplain
    cases hcontent
    rw [if_pos (take_eq_of_isPrefix h hplain (by decide))]
    exact ⟨bytes, rfl, h⟩
  · split at hcontent
    · rename_i hriff
      have hbytes := take_eq_of_isPrefix h hriff (by decide)
      rw [if_neg (by rw [hbytes]; decide), if_pos hbytes]
      exact unwrapRiff_of_prefix h hcontent
    · contradiction

/-- The file that is read from bytes that were cut off is that of all the bytes, cut off. -/
theorem File.read_of_prefix {cut : File} (h : short <+: bytes)
    (hread : File.read short = .ok cut) :
    ∃ file, File.read bytes = .ok file ∧ cut.header = file.header ∧
      CutOff Track.IsCut cut.tracks file.tracks := by
  obtain ⟨content, hcontent, hread⟩ := exists_ok_of_bind hread
  obtain ⟨whole, hwhole, hprefix⟩ := unwrap_of_prefix h hcontent
  rw [File.read, hwhole]
  exact File.ofChunks_of_cutOff (Chunk.cutOff_readAll .midi hprefix) hread _

end Midi
end MidiChords
