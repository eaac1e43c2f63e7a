import Mathlib

/-!
# Lines of text and where they stand

A line-oriented file is text cut at every newline.  Each line stands at a byte
offset of the file's UTF-8, and blank lines count towards the offsets of the
lines after them.
-/

namespace Silver.Foundation

open List
open String (toByteArray_ofList utf8EncodeChar)

abbrev Text : Type :=
  List Char

def byteSize (text : Text) : Nat :=
  (text.map Char.utf8Size).sum

@[simp] theorem byteSize_nil : byteSize [] = 0 :=
  rfl

@[simp] theorem byteSize_cons (character : Char) (text : Text) :
    byteSize (character :: text) = character.utf8Size + byteSize text := by
  simp [byteSize]

@[simp] theorem byteSize_append (first second : Text) :
    byteSize (first ++ second) = byteSize first + byteSize second := by
  simp [byteSize]

def encodeUtf8 (text : Text) : ByteArray :=
  (String.ofList text).toByteArray

def decodeUtf8 (bytes : ByteArray) : Option Text :=
  bytes.utf8Decode?.map Array.toList

theorem decodeUtf8_encodeUtf8 (text : Text) : decodeUtf8 (encodeUtf8 text) = some text := by
  rw [decodeUtf8, encodeUtf8, toByteArray_ofList, utf8Decode?_utf8Encode]
  rfl

theorem encodeUtf8_of_decodeUtf8 {bytes : ByteArray} (decoded : decodeUtf8 bytes = some text) :
    encodeUtf8 text = bytes := by
  obtain ⟨characters, valid, rfl⟩ := Option.map_eq_some_iff.mp decoded
  have whole : bytes.utf8Decode?.isSome := by rw [valid]; rfl
  have same : bytes.utf8Decode?.get whole = characters := by simp [valid]
  rw [encodeUtf8, toByteArray_ofList, ← same]
  exact ByteArray.utf8Encode_get_utf8Decode?

theorem encodeUtf8_append (first second : Text) :
    encodeUtf8 (first ++ second) = encodeUtf8 first ++ encodeUtf8 second := by
  simp [encodeUtf8, toByteArray_ofList]

theorem size_encodeUtf8 (text : Text) : (encodeUtf8 text).size = byteSize text := by
  rw [encodeUtf8, toByteArray_ofList]
  induction text with
  | nil => simp
  | cons _ text ih =>
    rw [utf8Encode_cons, ByteArray.size_append, ih, byteSize_cons]
    simp [utf8Encode]

def isWhitespace (character : Char) : Bool :=
  let code := character.toNat
  (0x09 <= code && code <= 0x0d) || code == 0x20 || code == 0x85 || code == 0xa0 ||
    code == 0x1680 || (0x2000 <= code && code <= 0x200a) || code == 0x2028 || code == 0x2029 ||
    code == 0x202f || code == 0x205f || code == 0x3000

def trim (text : Text) : Text :=
  ((text.dropWhile isWhitespace).reverse.dropWhile isWhitespace).reverse

theorem trim_eq_self (solid : ∀ character ∈ text, isWhitespace character = false) :
    trim text = text := by
  have kept : ∀ characters : Text, (∀ character ∈ characters, isWhitespace character = false) ->
      characters.dropWhile isWhitespace = characters := by
    intro characters solid
    cases characters with
    | nil => rfl
    | cons character => rw [dropWhile_cons_of_neg (by simp [solid])]
  rw [trim, kept text solid, kept text.reverse (by simpa using solid), reverse_reverse]

def splitLines : Text -> List Text
  | [] => [[]]
  | character :: rest =>
    if character = '\n' then [] :: splitLines rest
    else
      match splitLines rest with
      | [] => [[character]]
      | line :: lines => (character :: line) :: lines

theorem splitLines_ne_nil (text : Text) : splitLines text ≠ [] := by
  cases text with
  | nil => simp [splitLines]
  | cons =>
    rw [splitLines]
    split
    · simp
    · split <;> simp

theorem splitLines_line_append (whole : '\n' ∉ line) (rest : Text) :
    splitLines (line ++ '\n' :: rest) = line :: splitLines rest := by
  induction line with
  | nil => simp [splitLines]
  | cons character line ih =>
    have apart : character ≠ '\n' := fun same => whole (by simp [same])
    have others : '\n' ∉ line := fun mem => whole (by simp [mem])
    rw [cons_append, splitLines, if_neg apart, ih others]

theorem splitLines_of_not_mem (whole : '\n' ∉ line) : splitLines line = [line] := by
  induction line with
  | nil => rfl
  | cons character line ih =>
    have apart : character ≠ '\n' := fun same => whole (by simp [same])
    have others : '\n' ∉ line := fun mem => whole (by simp [mem])
    rw [splitLines, if_neg apart, ih others]

theorem splitLines_append_newline (first second : Text) :
    splitLines (first ++ '\n' :: second) = splitLines first ++ splitLines second := by
  induction first with
  | nil => simp [splitLines]
  | cons _ first ih =>
    rw [cons_append, splitLines, splitLines, ih]
    split
    · rfl
    cases cut : splitLines first with
    | nil => exact absurd cut (splitLines_ne_nil first)
    | cons => rfl

theorem newline_not_mem_of_mem_splitLines (mem : line ∈ splitLines text) : '\n' ∉ line := by
  induction text generalizing line with
  | nil => simp_all [splitLines]
  | cons _ rest ih =>
    rw [splitLines] at mem
    split at mem
    · rcases mem_cons.mp mem with rfl | later
      · simp
      · exact ih later
    rename_i apart
    cases cut : splitLines rest with
    | nil =>
      rw [cut] at mem
      simp only [mem_singleton] at mem
      subst mem
      simpa using fun same => apart same.symm
    | cons head =>
      rw [cut] at mem ih
      rcases mem_cons.mp mem with rfl | later
      · have others : '\n' ∉ head := ih (by simp)
        simp only [mem_cons, not_or]
        exact ⟨fun same => apart same.symm, others⟩
      · exact ih (by simp [later])

theorem splitLines_flatMap (whole : ∀ line ∈ lines, '\n' ∉ line) :
    splitLines (lines.flatMap (· ++ ['\n'])) = lines ++ [[]] := by
  induction lines with
  | nil => rfl
  | cons line lines ih =>
    have rest := ih fun other mem => whole other (by simp [mem])
    rw [flatMap_cons, append_assoc, singleton_append,
      splitLines_line_append (whole line (by simp)), rest, cons_append]

def linesFrom : Nat -> List Text -> List (Nat × Text)
  | _, [] => []
  | offset, line :: lines =>
    if line.all isWhitespace then linesFrom (offset + byteSize line + 1) lines
    else (offset, line) :: linesFrom (offset + byteSize line + 1) lines

def linesWithOffsets (text : Text) : List (Nat × Text) :=
  linesFrom 0 (splitLines text)

def linesSize (lines : List Text) : Nat :=
  (lines.map fun line => byteSize line + 1).sum

@[simp] theorem linesSize_cons (line : Text) (lines : List Text) :
    linesSize (line :: lines) = byteSize line + 1 + linesSize lines := by
  simp [linesSize]

theorem byteSize_flatMap (lines : List Text) :
    byteSize (lines.flatMap (· ++ ['\n'])) = linesSize lines := by
  induction lines with
  | nil => rfl
  | cons _ lines ih =>
    rw [flatMap_cons, byteSize_append, byteSize_append, ih, linesSize_cons]
    rfl

theorem linesSize_splitLines (text : Text) : linesSize (splitLines text) = byteSize text + 1 := by
  induction text with
  | nil => rfl
  | cons _ rest ih =>
    rw [splitLines]
    split
    · rename_i same
      subst same
      rw [linesSize_cons, ih, byteSize_cons, byteSize_nil]
      have one : Char.utf8Size '\n' = 1 := rfl
      omega
    cases cut : splitLines rest with
    | nil => simp [cut, linesSize] at ih
    | cons =>
      rw [cut, linesSize_cons] at ih
      simp only [linesSize_cons, byteSize_cons]
      omega

theorem linesFrom_append (offset : Nat) (first second : List Text) :
    linesFrom offset (first ++ second) =
      linesFrom offset first ++ linesFrom (offset + linesSize first) second := by
  induction first generalizing offset with
  | nil => rfl
  | cons line lines ih =>
    have shifted : offset + byteSize line + 1 + linesSize lines =
        offset + linesSize (line :: lines) := by
      rw [linesSize_cons]
      omega
    rw [cons_append, linesFrom, linesFrom, ih, shifted]
    split
    · rfl
    · rfl

theorem linesFrom_within {offset : Nat} (mem : entry ∈ linesFrom offset lines) :
    offset <= entry.1 ∧ entry.1 + byteSize entry.2 + 1 <= offset + linesSize lines := by
  induction lines generalizing offset with
  | nil => cases mem
  | cons line lines ih =>
    have later : entry ∈ linesFrom (offset + byteSize line + 1) lines ->
        offset <= entry.1 ∧ entry.1 + byteSize entry.2 + 1 <= offset + linesSize (line :: lines) := by
      intro mem
      have within := ih mem
      rw [linesSize_cons]
      omega
    rw [linesFrom] at mem
    split at mem
    · exact later mem
    rcases mem_cons.mp mem with rfl | mem
    · simp only [linesSize_cons]
      omega
    · exact later mem

theorem pairwise_linesFrom (offset : Nat) (lines : List Text) :
    (linesFrom offset lines).Pairwise fun first second => first.1 < second.1 := by
  induction lines generalizing offset with
  | nil => exact List.Pairwise.nil
  | cons _ lines ih =>
    rw [linesFrom]
    split
    · exact ih _
    refine pairwise_cons.mpr ⟨fun entry mem => ?_, ih _⟩
    have within := linesFrom_within mem
    omega

theorem linesWithOffsets_within (mem : entry ∈ linesWithOffsets text) :
    entry.1 + byteSize entry.2 <= byteSize text := by
  have within := linesFrom_within mem
  rw [linesSize_splitLines] at within
  omega

theorem mem_of_mem_linesFrom {offset : Nat} (mem : entry ∈ linesFrom offset lines) :
    entry.2 ∈ lines := by
  induction lines generalizing offset with
  | nil => cases mem
  | cons _ lines ih =>
    rw [linesFrom] at mem
    split at mem
    · exact .tail _ (ih mem)
    rcases mem_cons.mp mem with rfl | later
    · exact .head _
    · exact .tail _ (ih later)

theorem linesWithOffsets_append_newline (text : Text) :
    linesWithOffsets (text ++ ['\n']) = linesWithOffsets text := by
  rw [linesWithOffsets, splitLines_append_newline, linesFrom_append]
  exact append_nil _

def EndsLine (text : Text) : Prop :=
  text = [] ∨ ∃ before, text = before ++ ['\n']

theorem continuation_ne_newline (byte : UInt8) : byte &&& 0x3f ||| 0x80 ≠ 10 := by
  intro same
  have bit := congrArg (fun value => value.toNat.testBit 7) same
  have low : Nat.testBit 63 7 = false := by decide
  have high : Nat.testBit 128 7 = true := by decide
  have plain : Nat.testBit 10 7 = false := by decide
  simp [Nat.testBit_or, Nat.testBit_and, low, high, plain] at bit

theorem eq_newline_of_last
    {character : Char} (last : (utf8EncodeChar character).getLast? = some 10) :
    character = '\n' := by
  rcases Char.utf8Size_eq character with size | size | size | size
  · rw [String.utf8EncodeChar_eq_singleton size] at last
    have small : character.val.toNat <= 127 := Char.utf8Size_eq_one_iff.mp size
    have same : character.val.toUInt8.toNat = 10 := congrArg UInt8.toNat (Option.some.inj last)
    rw [UInt32.toNat_toUInt8, Nat.mod_eq_of_lt (by omega)] at same
    exact Char.ext (UInt32.toNat_inj.mp same)
  · rw [String.utf8EncodeChar_eq_cons_cons size] at last
    exact absurd (Option.some.inj last) (continuation_ne_newline _)
  · rw [String.utf8EncodeChar_eq_cons_cons_cons size] at last
    exact absurd (Option.some.inj last) (continuation_ne_newline _)
  rw [String.utf8EncodeChar_eq_cons_cons_cons_cons size] at last
  exact absurd (Option.some.inj last) (continuation_ne_newline _)

theorem endsLine_iff_back (text : Text) :
    EndsLine text ↔ ((encodeUtf8 text).data.back?.all fun byte => byte == 10) = true := by
  have bytes : (encodeUtf8 text).data.back? = (text.flatMap utf8EncodeChar).getLast? := by
    rw [encodeUtf8, toByteArray_ofList, utf8Encode, data_toByteArray, back?_toArray]
  rw [bytes]
  rcases eq_nil_or_concat text with rfl | ⟨before, character, rfl⟩
  · simp [EndsLine]
  have last : ((before ++ [character]).flatMap utf8EncodeChar).getLast? =
      (utf8EncodeChar character).getLast? := by
    rw [flatMap_append, flatMap_singleton, getLast?_append_of_ne_nil]
    simp
  rw [concat_eq_append, last]
  constructor
  · rintro (empty | ⟨other, same⟩)
    · simp at empty
    obtain ⟨-, rfl⟩ : before = other ∧ character = '\n' := by simpa using same
    decide
  intro ends
  cases shown : (utf8EncodeChar character).getLast? with
  | none => simp at shown
  | some byte =>
    rw [shown, Option.all_some, beq_iff_eq] at ends
    rw [eq_newline_of_last (shown.trans (congrArg some ends))]
    exact .inr ⟨before, rfl⟩

theorem byteSize_of_ascii (ascii : ∀ character ∈ text, character.utf8Size = 1) :
    byteSize text = text.length := by
  induction text with
  | nil => rfl
  | cons character text ih =>
    rw [byteSize_cons, ascii character (by simp),
      ih fun other mem => ascii other (by simp [mem]), length_cons]
    omega

theorem extract_encodeUtf8_of_ascii
    (ascii : ∀ character ∈ text, character.utf8Size = 1) (count : Nat) :
    (encodeUtf8 text).extract 0 count = encodeUtf8 (text.take count) := by
  have size : (encodeUtf8 (text.take count)).size = min count text.length := by
    rw [size_encodeUtf8, byteSize_of_ascii fun character mem =>
      ascii character (mem_of_mem_take mem), length_take]
  have parts : encodeUtf8 text = encodeUtf8 (text.take count) ++ encodeUtf8 (text.drop count) := by
    rw [← encodeUtf8_append, take_append_drop]
  by_cases whole : text.length <= count
  · rw [take_of_length_le whole]
    have within : (encodeUtf8 text).size <= count := by
      rwa [size_encodeUtf8, byteSize_of_ascii ascii]
    rw [← Nat.max_eq_left within]
    exact ByteArray.extract_zero_max_size
  rw [parts]
  refine ByteArray.extract_append_eq_left ?_
  omega

theorem EndsLine.linesWithOffsets_append (ends : EndsLine text) (rest : Text) :
    linesWithOffsets (text ++ rest) =
      linesWithOffsets text ++ linesFrom (byteSize text) (splitLines rest) := by
  rcases ends with rfl | ⟨_, rfl⟩
  · rfl
  rw [linesWithOffsets_append_newline, append_assoc, singleton_append,
    linesWithOffsets, splitLines_append_newline, linesFrom_append, linesSize_splitLines,
    Nat.zero_add, byteSize_append]
  rfl

theorem sublist_of_increasing {first second : List (Nat × α)}
    (firstIncreasing : first.Pairwise fun left right => left.1 < right.1)
    (secondIncreasing : second.Pairwise fun left right => left.1 < right.1)
    (subset : ∀ entry ∈ first, entry ∈ second) :
    first.Sublist second := by
  have antisymmetric : Std.Antisymm fun left right : Nat × α => left.1 < right.1 :=
    ⟨fun left right before after => absurd before (by omega)⟩
  have distinct : first.Nodup := by
    refine firstIncreasing.imp fun before same => ?_
    rw [same] at before
    omega
  exact sublist_of_subperm_of_pairwise (subperm_of_subset distinct subset)
    firstIncreasing secondIncreasing

end Silver.Foundation
