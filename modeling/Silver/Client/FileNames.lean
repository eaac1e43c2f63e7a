import Silver.Foundation.Lines
import Silver.Protocol.Device

/-!
# File names

A name a peer chose is made safe in passes, until a pass changes nothing.
Composition (NFC) is a parameter.
-/

namespace Silver.Client.Files

open Foundation Protocol List

def MAX_NAME_CHARS : Nat := 120

/-- The parts around the last dot. -/
def rsplitOnce : Text -> Option (Text × Text)
  | [] => none
  | character :: rest =>
    match rsplitOnce rest with
    | some (stem, ext) => some (character :: stem, ext)
    | none => if character = '.' then some ([], rest) else none

def splitExtension (name : Text) : Text × Text :=
  match rsplitOnce name with
  | some (stem, ext) =>
    if stem ≠ [] ∧ ext ≠ [] ∧ ext.length <= 16 then (stem, name.drop stem.length) else (name, [])
  | none => (name, [])

def isInvisible (character : Char) : Bool :=
  let code := character.toNat
  code ∈ [0x00AD, 0x061C, 0x06DD, 0x070F, 0x08E2, 0x180E, 0xFEFF, 0x110BD, 0x110CD, 0xE0001,
      0x115F, 0x1160, 0x3164, 0xFFA0] ||
    [(0x0600, 0x0605), (0x200B, 0x200F), (0x2028, 0x202E), (0x2060, 0x2064), (0x2066, 0x206F),
      (0xFFF9, 0xFFFB), (0x13430, 0x1343F), (0x1BCA0, 0x1BCA3), (0x1D173, 0x1D17A),
      (0xE0020, 0xE007F), (0xE0080, 0xE00FF)].any fun (first, last) => first <= code && code <= last

def isSeparator (character : Char) : Bool :=
  character ∈ ['/', '\\']

def isKept (character : Char) : Bool :=
  !isControl character && !isInvisible character && character ∉ [':', '*', '?', '"', '<', '>', '|']

def isClean (character : Char) : Bool :=
  !isSeparator character && isKept character

def edge (character : Char) : Bool :=
  character == '.' || isWhitespace character

/-- The devices, and the ports with a digit from 1 to 9. -/
def reservedNames : List Text :=
  ["CON", "PRN", "AUX", "NUL"].map String.toList ++
    ["COM", "LPT"].flatMap fun port => "123456789".toList.map (port.toList ++ [·])

def isReservedDeviceName (name : Text) : Bool :=
  (name.takeWhile (· ≠ '.')).map Char.toUpper ∈ reservedNames

def mark (name : Text) : Text :=
  if isReservedDeviceName name then '_' :: name else name

def cut (room : Nat) (stem : Text) : Text :=
  (stem.take room).rdropWhile edge

/-- One character is kept back for the mark. -/
def shortened (trimmed : Text) : Text :=
  let (stem, ext) := splitExtension trimmed
  let stem := cut (max (MAX_NAME_CHARS - 1 - ext.length) 1) stem
  (if stem = [] then ['f', 'i', 'l', 'e'] else stem) ++ ext

def passed (trimmed : Text) : Text :=
  mark (shortened trimmed)

section

variable (nfc : Text -> Text)

def sanitizePass (name : Text) : Text :=
  let base := name.rtakeWhile (!isSeparator ·)
  let cleaned := nfc (base.filter isKept)
  let trimmed := (cleaned.dropWhile edge).rdropWhile edge
  if trimmed = [] then ['f', 'i', 'l', 'e'] else passed trimmed

def repeated : Nat -> Text -> Text
  | 0, name => name
  | count + 1, name =>
    let again := sanitizePass nfc name
    if again = name then name else repeated count again

def sanitizeName (name : Text) : Text :=
  repeated nfc 4 (sanitizePass nfc name)

/-- What composition does. -/
structure Composition : Prop where
  idempotent : nfc (nfc text) = nfc text
  slice : nfc text = text -> piece <:+: text -> nfc piece = piece
  dot : nfc text = text -> nfc ('.' :: ending) = '.' :: ending ->
    nfc (text ++ '.' :: ending) = text ++ '.' :: ending
  ascii : (∀ character ∈ text, character.toNat < 128) -> nfc text = text
  clean : (∀ character ∈ text, isClean character) -> ∀ character ∈ nfc text, isClean character

/-- Composed text with nothing to take out and nothing to trim. -/
structure Tidy (name : Text) : Prop where
  composed : nfc name = name
  clean : ∀ character ∈ name, isClean character
  first : ∃ character rest, name = character :: rest ∧ edge character = false
  last : name.rdropWhile edge = name

structure Safe (name : Text) : Prop extends Tidy nfc name where
  short : name.length <= MAX_NAME_CHARS
  free : isReservedDeviceName name = false

end

theorem rsplitOnce_spec (name : Text) : match rsplitOnce name with
    | some (stem, ext) => name = stem ++ '.' :: ext ∧ '.' ∉ ext
    | none => '.' ∉ name := by
  induction name with
  | nil => simp [rsplitOnce]
  | cons first rest ih =>
    unfold rsplitOnce
    cases found : rsplitOnce rest with
    | some => simpa [found] using ih
    | none =>
      simp only [found] at ih
      by_cases dot : first = '.' <;> simp [dot, ih, eq_comm]

/-- A dot and a short ending. -/
def Extension (ext : Text) : Prop :=
  ∃ ending, ext = '.' :: ending ∧ ending ≠ [] ∧ ending.length <= 16 ∧ '.' ∉ ending

theorem splitExtension_append (extension : Extension ext) (first : Char) (stem : Text) :
    splitExtension (first :: (stem ++ ext)) = (first :: stem, ext) := by
  obtain ⟨ending, rfl, some, short, plain⟩ := extension
  have found : ∀ stem, rsplitOnce (stem ++ '.' :: ending) = .some (stem, ending) := by
    intro stem
    induction stem with
    | nil =>
      have spec := rsplitOnce_spec ending
      cases found : rsplitOnce ending with
      | some => simp_all
      | none => simp [rsplitOnce, found]
    | cons _ _ ih => simp [rsplitOnce, ih]
  simp [splitExtension, rsplitOnce, found, some, short]

theorem splitExtension_cons (first : Char) (rest : Text) : ∃ stem ext,
    splitExtension (first :: rest) = (first :: stem, ext) ∧ rest = stem ++ ext ∧
      (ext = [] ∨ Extension ext) := by
  have spec := rsplitOnce_spec (first :: rest)
  unfold splitExtension
  split
  · rename_i stem ext found
    simp only [found] at spec
    split
    · rename_i parts
      obtain ⟨_, stem, rfl⟩ := exists_cons_of_ne_nil parts.1
      obtain ⟨rfl, rfl⟩ := cons.inj spec.1
      exact ⟨stem, '.' :: ext, by simp, rfl, .inr ⟨ext, rfl, parts.2.1, parts.2.2, spec.2⟩⟩
    · exact ⟨rest, [], rfl, by simp, .inl rfl⟩
  · exact ⟨rest, [], rfl, by simp, .inl rfl⟩

theorem rdropWhile_cons (solid : edge first = false) (text : Text) :
    (first :: text).rdropWhile edge = first :: text.rdropWhile edge := by
  induction text using reverseRecOn with
  | nil => simp [rdropWhile, solid]
  | append_singleton text last ih =>
    rw [← cons_append, rdropWhile_concat, rdropWhile_concat]
    split
    · exact ih
    · rfl

theorem length_cut_le (room : Nat) (stem : Text) : (cut room stem).length <= room :=
  ( rdropWhile_prefix edge _).length_le.trans (length_take_le ..)

theorem cut_cut (room : Nat) (stem : Text) : cut room (cut room stem) = cut room stem := by
  rw [cut, take_of_length_le (length_cut_le ..), cut, rdropWhile_idempotent]

section

variable (solid : edge first = false)

include solid

theorem shortened_cons (split : splitExtension (first :: rest) = (first :: stem, ext)) :
    shortened (first :: rest) = first :: (cut (118 - ext.length) stem ++ ext) := by
  have room : max (MAX_NAME_CHARS - 1 - ext.length) 1 = 118 - ext.length + 1 := by
    simp only [MAX_NAME_CHARS]
    omega
  simp [shortened, split, room, cut, rdropWhile_cons solid]

/-- A cut can make an ending short enough to be an extension; the next one is the last. -/
theorem shortened_settles (rest : Text) :
    shortened (shortened (shortened (first :: rest))) = shortened (shortened (first :: rest)) := by
  have extended : ∀ stem ext, Extension ext ->
      shortened (shortened (first :: (stem ++ ext))) = shortened (first :: (stem ++ ext)) := by
    intro stem ext extension
    have split := splitExtension_append extension first
    rw [shortened_cons solid (split _), shortened_cons solid (split _), cut_cut]
  obtain ⟨stem, ext, split, rfl, rfl | extension⟩ := splitExtension_cons first rest
  · rw [shortened_cons solid split]
    generalize fits : cut (118 - length []) stem ++ [] = rest
    obtain ⟨front, ext, split, rfl, rfl | extension⟩ := splitExtension_cons first rest
    · have fixed := shortened_cons solid split
      rw [← append_cancel_right fits, cut_cut] at fixed
      simp only [← append_cancel_right fits, fixed]
    · exact extended front ext extension
  · exact congrArg shortened (extended stem ext extension)

end

theorem reservedNames_spec : ∀ name ∈ reservedNames, name.head? ≠ some '_' ∧
    name.all (· ≤ 'Z') := by
  decide +kernel

theorem not_reserved (name : Text) : isReservedDeviceName ('_' :: name) = false := by
  refine decide_eq_false fun reserved => (reservedNames_spec _ reserved).1 ?_
  simp [show Char.toUpper '_' = '_' from rfl]

theorem passed_marked (name : Text) :
    ∃ rest, passed ('_' :: name) = '_' :: rest ∧ shortened ('_' :: name) = '_' :: rest := by
  obtain ⟨stem, ext, split, -⟩ := splitExtension_cons '_' name
  have shortens := shortened_cons rfl split
  exact ⟨_, by rw [passed, shortens, mark, not_reserved]; rfl, shortens⟩

/-- A mark is given once, and after it the second pass is the last to change anything. -/
theorem passed_settles (solid : edge first = false) (rest : Text) :
    passed (passed (passed (passed (passed (first :: rest))))) =
      passed (passed (passed (passed (first :: rest)))) := by
  have marked : ∀ name, passed (passed (passed ('_' :: name))) = passed (passed ('_' :: name)) := by
    intro name
    obtain ⟨_, passes, shortens⟩ := passed_marked name
    obtain ⟨second, again, shorter⟩ := passed_marked _
    obtain ⟨_, final, last⟩ := passed_marked second
    have settles := shortened_settles (show edge '_' = false from rfl) name
    rw [shortens, shorter, last] at settles
    rw [passes, again, final, settles]
  have settles := shortened_settles solid rest
  generalize first :: rest = name at *
  have passes (name : Text) : passed name = mark (shortened name) := rfl
  rw [passes name, mark]
  split
  · exact congrArg passed (marked _)
  rw [passes (shortened name), mark]
  split
  · exact marked _
  have fixed : passed (shortened (shortened name)) = shortened (shortened name) := by
    rw [passes, settles, mark, if_neg ‹_›]
  simp only [fixed]

theorem ascii_of_reserved (reserved : isReservedDeviceName name) :
    ∀ letter ∈ name.takeWhile (· ≠ '.'), letter.toNat < 128 := by
  intro letter mem
  have upper := of_decide_eq_true (all_eq_true.mp
    (reservedNames_spec _ (of_decide_eq_true reserved)).2 _ (mem_map_of_mem mem))
  unfold Char.toUpper at upper
  split at upper
  · rename_i lower
    exact Nat.lt_of_le_of_lt lower.2 (by decide)
  · exact Nat.lt_of_le_of_lt upper (by decide)

section

variable (composition : Composition nfc)

include composition

theorem Tidy.mark (tidy : Tidy nfc name) : Tidy nfc (mark name) := by
  unfold Files.mark
  split
  · rename_i reserved
    refine ⟨?_, forall_mem_cons.mpr ⟨by decide, tidy.clean⟩, ⟨_, _, rfl, rfl⟩, ?_⟩
    · have ascii := composition.ascii
        (forall_mem_cons.mpr ⟨show '_'.toNat < 128 by decide, ascii_of_reserved reserved⟩)
      have dot := head?_dropWhile_not (· ≠ '.') name
      have composed := composition.slice tidy.composed (dropWhile_suffix (· ≠ '.')).isInfix
      rw [← takeWhile_append_dropWhile (p := (· ≠ '.')) (l := name), ← cons_append]
      cases dropped : name.dropWhile (· ≠ '.') with
      | nil => simpa using ascii
      | cons first ending =>
        rw [dropped] at dot composed
        obtain rfl : first = '.' := by simpa using dot
        exact composition.dot ascii composed
    · rw [rdropWhile_cons rfl, tidy.last]
  · exact tidy

theorem Tidy.passed (tidy : Tidy nfc name) : Safe nfc (passed name) := by
  obtain ⟨first, rest, rfl, solid⟩ := tidy.first
  obtain ⟨stem, ext, split, rfl, parts⟩ := splitExtension_cons first rest
  rw [Files.passed, shortened_cons solid split]
  have short := length_cut_le (118 - ext.length) stem
  have front := ( rdropWhile_prefix edge _).trans ( take_prefix (118 - ext.length) stem)
  have last := rdropWhile_idempotent edge (stem.take (118 - ext.length))
  change (cut _ stem).rdropWhile edge = cut _ stem at last
  change cut _ stem <+: stem at front
  generalize cut (118 - ext.length) stem = shorter at *
  have clean : ∀ other ∈ first :: (shorter ++ ext), isClean other := by
    intro other mem
    refine tidy.clean other ?_
    simp only [mem_cons, mem_append] at mem ⊢
    exact mem.imp_right (Or.imp_left (front.subset ·))
  have begins := composition.slice tidy.composed
    ((prefix_cons_inj first).mpr (front.trans (prefix_append ..))).isInfix
  have whole : Tidy nfc (first :: (shorter ++ ext)) ∧ ext.length <= 17 := by
    rcases parts with rfl | ⟨ending, rfl, -, bound, -⟩
    · simp only [append_nil] at clean ⊢
      exact ⟨⟨begins, clean, ⟨_, _, rfl, solid⟩, by rw [rdropWhile_cons solid, last]⟩, by simp⟩
    · refine ⟨⟨composition.dot begins (composition.slice tidy.composed
        (suffix_append (first :: stem) _).isInfix), clean, ⟨_, _, rfl, solid⟩, ?_⟩, Nat.succ_le_succ bound⟩
      have last := tidy.last
      rw [rdropWhile_eq_self_iff] at last ⊢
      simpa using last
  refine ⟨whole.1.mark composition, ?_, ?_⟩ <;> unfold Files.mark
  · unfold MAX_NAME_CHARS
    split <;> simp only [length_cons, length_append] <;> omega
  · split
    · exact not_reserved _
    · simp_all

omit composition in
theorem Tidy.sanitizePass (tidy : Tidy nfc name) : sanitizePass nfc name = Files.passed name := by
  obtain ⟨first, rest, rfl, solid⟩ := tidy.first
  have clean := tidy.clean
  simp only [isClean, Bool.and_eq_true] at clean
  have base := rtakeWhile_eq_self_iff.mpr fun _ mem => (clean _ mem).1
  unfold Files.sanitizePass
  simp only [base, filter_eq_self.mpr fun _ mem => (clean _ mem).2, tidy.composed]
  rw [dropWhile_cons_of_neg (by simp [solid]), tidy.last, if_neg (cons_ne_nil _ _)]

theorem sanitizePass_eq (name : Text) :
    ∃ trimmed, Tidy nfc trimmed ∧ sanitizePass nfc name = passed trimmed := by
  unfold sanitizePass
  extract_lets base cleaned trimmed
  split
  · exact ⟨['f', 'i', 'l', 'e'], ⟨composition.ascii (by simp), by simp [isClean, isSeparator, isKept,
      isControl, isInvisible], ⟨_, _, rfl, rfl⟩, rfl⟩, rfl⟩
  · rename_i named
    have slice := ( rdropWhile_prefix edge (cleaned.dropWhile edge)).isInfix.trans
      (dropWhile_suffix edge).isInfix
    have clean : ∀ letter ∈ cleaned, isClean letter := by
      refine composition.clean fun letter mem => ?_
      obtain ⟨mem, kept⟩ := mem_filter.mp mem
      exact Bool.and_eq_true_iff.mpr ⟨mem_rtakeWhile_imp (p := (!isSeparator ·)) mem, kept⟩
    refine ⟨trimmed, ⟨composition.slice composition.idempotent slice,
      fun letter mem => clean letter (slice.subset mem), ?_, rdropWhile_idempotent ..⟩, rfl⟩
    have solid := head?_dropWhile_not edge cleaned
    cases begins : cleaned.dropWhile edge with
    | nil => simp [trimmed, begins] at named
    | cons first rest =>
      rw [begins] at solid
      exact ⟨first, _, by rw [← rdropWhile_cons solid, ← begins], solid⟩

theorem Safe.repeated (safe : Safe nfc name) (count : Nat) :
    Safe nfc (repeated nfc count name) ∧ repeated nfc count name = Files.passed^[count] name := by
  induction count generalizing name with
  | zero => exact ⟨safe, rfl⟩
  | succ count ih =>
    simp only [Files.repeated, safe.sanitizePass]
    split
    · rename_i same
      exact ⟨safe, (Function.iterate_fixed same _).symm⟩
    · exact ih (safe.passed composition)

end

theorem sanitizeName_safe (composition : Composition nfc) (name : Text) :
    Safe nfc (sanitizeName nfc name) ∧
      sanitizeName nfc (sanitizeName nfc name) = sanitizeName nfc name := by
  obtain ⟨trimmed, tidy, passes⟩ := sanitizePass_eq composition name
  obtain ⟨first, rest, rfl, solid⟩ := tidy.first
  obtain ⟨safe, same⟩ := (tidy.passed composition).repeated composition 4
  have settled := congrArg passed (passed_settles solid rest)
  simp only [Function.iterate_succ_apply, Function.iterate_zero_apply] at same
  rw [← passes, ← sanitizeName] at safe same
  rw [← passes, ← same] at settled
  refine ⟨safe, ?_⟩
  rw [sanitizeName, safe.sanitizePass, settled, (safe.repeated composition 4).2,
    Function.iterate_fixed settled]

theorem sanitizeName_device : Safe id (sanitizeName id ['c', 'o', 'n']) ∧
    sanitizeName id (sanitizeName id ['c', 'o', 'n']) = sanitizeName id ['c', 'o', 'n'] :=
  sanitizeName_safe ⟨rfl, fun _ _ => rfl, fun _ _ => rfl, fun _ => rfl, fun clean => clean⟩ _

end Silver.Client.Files
