import Moonbridge.Proofs.Json.Decoder

/-!
# JSON documents denote one value

Every text of the grammar is read as what it denotes, whatever stands behind it, as long as that
cannot belong to it. So a document denotes one value, and a text that is refused is no document.
-/

namespace Moonbridge.Json

open JavaScript (advance_some)
open Text (Stops takeWhile_run dropWhile_run)
open Numeral (Digits Whole Fraction Exponent Parts)

section Blanks

variable {gap rest : List Char}

/-- A gap is skipped up to the first character that is no blank. -/
theorem skipBlanks_append (hgap : Blank gap) (hrest : Stops (· ∈ blanks) rest) :
    skipBlanks (gap ++ rest) = rest :=
  dropWhile_run (fun c hc => decide_eq_true (hgap c hc)) hrest

/-- A character that is no blank ends a gap. -/
theorem stops_cons {c : Char} (hc : c ∉ blanks) (rest : List Char) :
    Stops (· ∈ blanks) (c :: rest) := by
  intro d hd
  obtain rfl := Option.some.inj hd
  simpa using hc

/-- What stands behind a value: blanks, a comma or a closing bracket. -/
def Ends (rest : List Char) : Prop :=
  ∀ c ∈ rest.head?, c ∈ blanks ∨ c ∈ [',', ']', '\x7d']

/-- What stands behind the blanks around a value. -/
def Closes (rest : List Char) : Prop := ∀ c ∈ rest.head?, c ∈ [',', ']', '\x7d']

/-- A gap in front of a closing character ends a number. -/
theorem Closes.ends (h : Closes rest) (hgap : Blank gap) : Ends (gap ++ rest) := by
  cases gap with
  | nil => exact fun c hc => Or.inr (h c hc)
  | cons d gap =>
    intro c hc
    obtain rfl := Option.some.inj hc
    exact Or.inl (hgap d List.mem_cons_self)

/-- A closing character ends a gap. -/
theorem Closes.stops (h : Closes rest) : Stops (· ∈ blanks) rest := by
  have hall : ∀ c ∈ [',', ']', '\x7d'], decide (c ∈ blanks) = false := by simp [blanks]
  exact fun c hc => hall c (h c hc)

/-- A comma and the closing brackets close a value. -/
theorem closes_cons {c : Char} (hc : c ∈ [',', ']', '\x7d']) (rest : List Char) :
    Closes (c :: rest) := by
  intro d hd
  obtain rfl := Option.some.inj hd
  exact hc

/-- Behind its own character the rest is found, and it is shorter. -/
theorem behind?_self (c : Char) (rest : List Char) :
    behind? c (c :: rest) = some ⟨rest, Nat.lt_add_one rest.length⟩ := by
  simp [behind?]

/-- Behind another character nothing is found. -/
theorem behind?_of_ne {c d : Char} (h : d ≠ c) (rest : List Char) :
    behind? c (d :: rest) = none := by
  simp [behind?, h]

end Blanks

section Numbers

variable {rest text : List Char}

/-- A character behind a value does not go on with a number. -/
theorem Ends.apart (h : Ends rest) :
    ∀ c ∈ rest.head?, c.isDigit = false ∧ c ≠ '.' ∧ c ∉ ['e', 'E'] := by
  have hall : ∀ c ∈ blanks ++ [',', ']', '\x7d'],
      c.isDigit = false ∧ c ≠ '.' ∧ c ∉ ['e', 'E'] := by simp [blanks]
  exact fun c hc => hall c (List.mem_append.mpr (h c hc))

/-- Where a number ends, no digit follows. -/
theorem Ends.isDigit (h : Ends rest) : Stops Char.isDigit rest := fun c hc => (h.apart c hc).1

/-- Digits are read as far as they go. -/
theorem readDigits_append {digits : List Char} (h : Digits digits)
    (hrest : Stops Char.isDigit rest) : readDigits (digits ++ rest) = some (digits, rest) := by
  simp [readDigits, takeWhile_run h.isDigit hrest, dropWhile_run h.isDigit hrest, h.nonempty]

/-- Digits without a sign in front of them are a positive power. -/
theorem readPowerSign_digits {digits : List Char} (h : Digits digits) (rest : List Char) :
    readPowerSign (digits ++ rest) = (false, digits ++ rest) := by
  obtain ⟨c, others, rfl⟩ := List.exists_cons_of_ne_nil h.nonempty
  have hc := h.isDigit c List.mem_cons_self
  unfold readPowerSign
  split
  · rename_i heq
    obtain ⟨rfl, -⟩ := List.cons.inj heq
    cases hc
  · rename_i heq
    obtain ⟨rfl, -⟩ := List.cons.inj heq
    cases hc
  · rfl

/-- The digits of an exponent are read behind its sign. -/
theorem readExponent_digits {mark : Char} {signed' digits : List Char} {negative : Bool}
    (hmark : mark ∈ ['e', 'E']) (hsign : readPowerSign signed' = (negative, digits ++ rest))
    (hdigits : Digits digits) (hrest : Ends rest) :
    readExponent (mark :: signed') =
      some (some (signed negative (Decimal.ofDigits digits)), rest) := by
  simp only [readExponent, if_pos hmark, hsign, readDigits_append hdigits hrest.isDigit,
    Option.bind_eq_bind, Option.bind_some]

/-- An exponent is read where there is one. -/
theorem readExponent_append {power : Int} (h : Exponent text power) (hrest : Ends rest) :
    readExponent (text ++ rest) = some (if text = [] then none else some power, rest) := by
  cases h with
  | none =>
    cases rest with
    | nil => rfl
    | cons c rest =>
      have hc := (hrest.apart c rfl).2.2
      simp [readExponent, hc]
  | bare isMark isDigits =>
    exact readExponent_digits isMark (readPowerSign_digits isDigits rest) isDigits hrest
  | @plus mark digits isMark isDigits =>
    have hsign : readPowerSign ('+' :: (digits ++ rest)) = (false, digits ++ rest) := rfl
    exact readExponent_digits isMark hsign isDigits hrest
  | @minus mark digits isMark isDigits =>
    have hsign : readPowerSign ('-' :: (digits ++ rest)) = (true, digits ++ rest) := rfl
    exact readExponent_digits isMark hsign isDigits hrest

/-- What follows the digits in front of an exponent is no digit and no point. -/
theorem exponent_apart {power : Int} (h : Exponent text power) (hrest : Ends rest) :
    ∀ c ∈ (text ++ rest).head?, c.isDigit = false ∧ c ≠ '.' := by
  cases h with
  | none => exact fun c hc => ⟨(hrest.apart c hc).1, (hrest.apart c hc).2.1⟩
  | bare isMark _ | plus isMark _ | minus isMark _ =>
    intro c hc
    obtain rfl := Option.some.inj hc
    simp only [List.mem_cons, List.not_mem_nil, or_false] at isMark
    rcases isMark with rfl | rfl <;> decide

/-- A fraction is read where there is one. -/
theorem readFraction_append {digits : List Char} (h : Fraction text digits)
    (hrest : ∀ c ∈ rest.head?, c.isDigit = false ∧ c ≠ '.') :
    readFraction (text ++ rest) = some (if text = [] then none else some digits, rest) := by
  cases h with
  | none =>
    cases rest with
    | nil => rfl
    | cons c rest =>
      have hc := (hrest c rfl).2
      simp [readFraction, hc]
  | point isDigits =>
    simp [readFraction, readDigits_append isDigits fun c hc => (hrest c hc).1]

/-- A fraction does not continue the digits in front of it. -/
theorem fraction_apart {digits : List Char} (h : Fraction text digits)
    (hrest : ∀ c ∈ rest.head?, c.isDigit = false ∧ c ≠ '.') :
    Stops Char.isDigit (text ++ rest) := by
  cases h with
  | none => exact fun c hc => (hrest c hc).1
  | point isDigits => simp [Stops]

/-- The sign of a number is read in front of its first digit. -/
theorem readSign_append {sign : List Char} {negative : Bool} (h : Sign sign negative) {c : Char}
    (hc : c.isDigit = true) (rest : List Char) :
    readSign (sign ++ c :: rest) = (negative, c :: rest) := by
  cases h with
  | minus => rfl
  | none =>
    unfold readSign
    split
    · rename_i heq
      obtain ⟨rfl, -⟩ := List.cons.inj heq
      cases hc
    · rfl

/-- The parts of a number are read one after the other. -/
theorem readNumber_parts {sign : List Char} {negative : Bool} (h : Sign sign negative) (p : Parts)
    (hrest : Ends rest) :
    readNumber (sign ++ p.text ++ rest) =
      some (if p.fraction = [] ∧ p.exponent = [] then
          .int (signed negative (Decimal.ofDigits p.whole))
        else .number (nearest negative p.decimal), rest) := by
  have hexponent := readExponent_append p.isExponent hrest
  have hapart := exponent_apart p.isExponent hrest
  have hfraction := readFraction_append p.isFraction hapart
  have hwhole := readDigits_append p.isWhole.toDigits (fraction_apart p.isFraction hapart)
  have hzero : ¬ (p.whole.head? = some '0' ∧ p.whole ≠ ['0']) :=
    fun hzero => hzero.2 (p.isWhole.zeroAlone hzero.1)
  have hsign : readSign (sign ++ (p.whole ++ (p.fraction ++ (p.exponent ++ rest)))) =
      (negative, p.whole ++ (p.fraction ++ (p.exponent ++ rest))) := by
    obtain ⟨c, others, hc⟩ := List.exists_cons_of_ne_nil p.isWhole.nonempty
    have hdigit : c.isDigit = true := p.isWhole.isDigit c (by simp [hc])
    rw [hc]
    exact readSign_append h hdigit _
  rw [Parts.text, List.append_assoc, List.append_assoc, List.append_assoc]
  simp only [readNumber, hsign, hwhole, hfraction, hexponent, Option.bind_eq_bind,
    Option.bind_some, if_neg hzero]
  -- A part that is missing counts as no digits, or as the exponent zero.
  by_cases hfraction : p.fraction = [] <;> by_cases hexponent : p.exponent = []
  · simp [hfraction, hexponent]
  · have hdigits := p.isFraction.digits_eq_nil hfraction
    simp [hfraction, hexponent, Parts.decimal, hdigits]
  · have hpower := p.isExponent.power_eq_zero hexponent
    simp [hfraction, hexponent, Parts.decimal, hpower]
  · simp [hfraction, hexponent, Parts.decimal]

/-- The text of a number is read as the number. -/
theorem NumberText.readNumber_eq {value : Json} (h : NumberText text value) (hrest : Ends rest) :
    readNumber (text ++ rest) = some (value, rest) := by
  cases h with
  | @whole sign whole negative isSign isWhole =>
    have hread := readNumber_parts isSign ⟨whole, [], [], [], 0, isWhole, .none, .none⟩ hrest
    simpa [Parts.text] using hread
  | real isSign p isReal =>
    rw [readNumber_parts isSign p hrest, if_neg (by simpa [imp_iff_not_or] using isReal)]

/-- The text of a number starts with a minus or a digit. -/
theorem NumberText.head {value : Json} (h : NumberText text value) :
    ∃ c tail, text = c :: tail ∧ (c = '-' ∨ c.isDigit = true) := by
  have hsigned : ∀ {sign digits : List Char} {negative : Bool}, Sign sign negative →
      (∃ c tail, digits = c :: tail ∧ c.isDigit = true) →
      ∃ c tail, sign ++ digits = c :: tail ∧ (c = '-' ∨ c.isDigit = true) := by
    rintro sign digits negative hsign ⟨c, tail, rfl, hc⟩
    cases hsign with
    | none => exact ⟨c, tail, rfl, Or.inr hc⟩
    | minus => exact ⟨'-', c :: tail, rfl, Or.inl rfl⟩
  cases h with
  | whole isSign isWhole =>
    obtain ⟨c, tail, rfl⟩ := List.exists_cons_of_ne_nil isWhole.nonempty
    exact hsigned isSign ⟨c, tail, rfl, isWhole.isDigit c List.mem_cons_self⟩
  | real isSign p isReal => exact hsigned isSign p.head_text

end Numbers

section Strings

variable {rest text : List Char}

/-- A plain character stands for itself. -/
theorem readUnits_plain {c : Char} (h : isPlain c = true) (rest : List Char) :
    readUnits (c :: rest) = (readUnits rest).map fun (units, rest) => (utf16 c ++ units, rest) := by
  have hquote : c ≠ '"' := by
    rintro rfl
    cases h
  have hslash : c ≠ '\\' := by
    rintro rfl
    cases h
  rw [readUnits, if_pos h]
  · cases readUnits rest <;> rfl
  · exact hquote
  · exact fun _ _ _ _ _ hc => absurd hc hslash
  · exact fun _ _ hc => absurd hc hslash

/-- A short escape stands for its character. -/
theorem readUnits_short {letter c : Char} (h : (letter, c) ∈ shortEscapes) (rest : List Char) :
    readUnits ('\\' :: letter :: rest) =
      (readUnits rest).map fun (units, rest) => (utf16 c ++ units, rest) := by
  have hletter : letter ≠ 'u' ∧ shortEscapes.lookup letter = some c := by
    have hall : ∀ e ∈ shortEscapes, e.1 ≠ 'u' ∧ shortEscapes.lookup e.1 = some e.2 := by decide
    exact hall _ h
  rw [readUnits, hletter.2]
  · cases readUnits rest <;> rfl
  · rintro a b c d others hu
    exact absurd hu hletter.1

/-- The inside of a string is read as its units. -/
theorem Units.readUnits_eq {body : List Char} {units : List Nat} (h : Units body units)
    (rest : List Char) : readUnits (body ++ '"' :: rest) = some (units, rest) := by
  induction h with
  | nil => rfl
  | plain isPlain tail ih =>
    rw [List.cons_append, readUnits_plain isPlain, ih]
    rfl
  | short listed tail ih =>
    rw [List.cons_append, List.cons_append, readUnits_short listed, ih]
    rfl
  | numbered isUnit tail ih =>
    simp [readUnits, isUnit, ih]

/-- The units of a text make up the text. -/
theorem ofUtf16?_flatMap (text : List Char) : ofUtf16? (text.flatMap utf16) = some text := by
  induction text with
  | nil => rfl
  | cons c text ih =>
    have hvalid : c.toNat < 0xd800 ∨ 0xdfff < c.toNat ∧ c.toNat < 0x110000 := c.valid
    rw [List.flatMap_cons, utf16]
    split
    · rename_i hsmall
      have hhigh : ¬ (0xd800 ≤ c.toNat ∧ c.toNat < 0xdc00) := by omega
      have hlow : ¬ (0xdc00 ≤ c.toNat ∧ c.toNat < 0xe000) := by omega
      rw [List.singleton_append, ofUtf16?.eq_def]
      simp only [if_neg hhigh, if_neg hlow, ih, Char.ofNat_toNat, Option.map_some]
    · rename_i hlarge
      -- The first unit has the upper bits of what exceeds the basic plane, the second the lower.
      have hhigh : 0xd800 ≤ 0xd800 + (c.toNat - 0x10000) / 0x400 ∧
          0xd800 + (c.toNat - 0x10000) / 0x400 < 0xdc00 := by omega
      have hlow : 0xdc00 ≤ 0xdc00 + (c.toNat - 0x10000) % 0x400 ∧
          0xdc00 + (c.toNat - 0x10000) % 0x400 < 0xe000 := by omega
      have hcode : 0x10000 + (0xd800 + (c.toNat - 0x10000) / 0x400 - 0xd800) * 0x400 +
          (0xdc00 + (c.toNat - 0x10000) % 0x400 - 0xdc00) = c.toNat := by omega
      rw [List.cons_append, List.singleton_append, ofUtf16?.eq_def]
      simp only [if_pos hhigh, if_pos hlow, hcode, ih, Char.ofNat_toNat, Option.map_some]

/-- A string is read as what it denotes. -/
theorem Quoted.readQuoted_eq {value : String} (h : Quoted text value) :
    ∃ tail, text = '"' :: tail ∧ ∀ rest, readQuoted (tail ++ rest) = some (value, rest) := by
  cases h with
  | @mk body value isBody =>
    refine ⟨body ++ ['"'], rfl, fun rest => ?_⟩
    have hread := isBody.readUnits_eq rest
    rw [List.append_assoc, List.singleton_append]
    simp [readQuoted, hread, ofUtf16?_flatMap]

/-- The name of a member is read up to the colon. -/
theorem Name.readName_eq {key : String} (h : Name text key) (rest : List Char) :
    readName (text ++ ':' :: rest) = some (key, ':' :: rest) := by
  cases h with
  | @mk before name after key isBefore isText isAfter =>
    obtain ⟨tail, rfl, hread⟩ := isText.readQuoted_eq
    have hskip : skipBlanks (before ++ '"' :: tail ++ after ++ ':' :: rest) =
        '"' :: (tail ++ (after ++ ':' :: rest)) := by
      rw [List.append_assoc, List.append_assoc]
      exact skipBlanks_append isBefore (stops_cons (by decide) _)
    have hafter : skipBlanks (after ++ ':' :: rest) = ':' :: rest :=
      skipBlanks_append isAfter (stops_cons (by decide) _)
    rw [readName, hskip]
    simp [hread, hafter]

end Strings

section Heads

variable {text : List Char}

/-- The characters that a value does not start with. -/
def outside : List Char := blanks ++ [']', '\x7d']

/-- A value starts with a character of its own. -/
theorem head_value {value : Json} (h : Denotes text (.value value)) :
    ∃ c tail, text = c :: tail ∧ c ∉ outside := by
  cases h with
  | word listed =>
    simp only [words, List.mem_cons, Prod.mk.injEq, List.not_mem_nil, or_false] at listed
    rcases listed with ⟨rfl, -⟩ | ⟨rfl, -⟩ | ⟨rfl, -⟩ <;> exact ⟨_, _, rfl, by decide⟩
  | number isNumber =>
    obtain ⟨c, tail, rfl, rfl | hc⟩ := isNumber.head
    · exact ⟨'-', tail, rfl, by decide⟩
    · have hall : ∀ c ∈ outside, c.isDigit = false := by simp [outside, blanks]
      exact ⟨c, tail, rfl, fun hmem => by simp [hall c hmem] at hc⟩
  | string isQuoted =>
    obtain ⟨tail, rfl, -⟩ := isQuoted.readQuoted_eq
    exact ⟨'"', tail, rfl, by decide⟩
  | emptyArray isBlank => exact ⟨'[', _, rfl, by decide⟩
  | array inside => exact ⟨'[', _, rfl, by decide⟩
  | emptyObject isBlank => exact ⟨'\x7b', _, rfl, by decide⟩
  | object inside => exact ⟨'\x7b', _, rfl, by decide⟩

/-- Behind blanks at the front stands the start of a value or of a name. -/
def Opens (text : List Char) : Prop :=
  ∃ c, c ∉ outside ∧ ∀ rest, ∃ tail, skipBlanks (text ++ rest) = c :: tail

/-- A gap in front of a value belongs to how it opens. -/
theorem opens_of_blank {gap : List Char} {c : Char} (hgap : Blank gap) (hc : c ∉ outside)
    (tail : List Char) : Opens (gap ++ c :: tail) := by
  refine ⟨c, hc, fun rest => ⟨tail ++ rest, ?_⟩⟩
  rw [List.append_assoc]
  exact skipBlanks_append hgap (stops_cons (fun h => hc (List.mem_append_left _ h)) _)

/-- How a value opens depends on its start only. -/
theorem Opens.append (h : Opens text) (others : List Char) : Opens (text ++ others) := by
  obtain ⟨c, hc, hopens⟩ := h
  refine ⟨c, hc, fun rest => ?_⟩
  rw [List.append_assoc]
  exact hopens (others ++ rest)

/-- A text that opens with something takes up a part of the input. -/
theorem Opens.length_lt (h : Opens text) (rest : List Char) :
    rest.length < (text ++ rest).length := by
  obtain ⟨c, -, hopens⟩ := h
  have hne : text ≠ [] := by
    rintro rfl
    obtain ⟨tail, htail⟩ := hopens []
    cases htail
  simpa using List.length_pos_iff.mpr hne

/-- The name of a member opens with its quote, behind a gap. -/
theorem Name.opens {key : String} (h : Name text key) : Opens text := by
  cases h with
  | mk isBefore isText isAfter =>
    obtain ⟨tail, rfl, -⟩ := isText.readQuoted_eq
    exact (opens_of_blank isBefore (by decide) tail).append _

/-- Every element opens, with a gap in front of its value or without. -/
theorem opens_element {value : Json} (h : Denotes text (.element value)) : Opens text := by
  cases h with
  | element isBefore inside isAfter =>
    obtain ⟨c, tail, rfl, hc⟩ := head_value inside
    exact (opens_of_blank isBefore hc tail).append _

/-- Items open as their first element does. -/
theorem opens_items {items : List Json} (h : Denotes text (.items items)) : Opens text := by
  cases h with
  | lastItem last => exact opens_element last
  | item first rest => exact (opens_element first).append _

/-- Members open as their first name does. -/
theorem opens_members {members : List (String × Json)} (h : Denotes text (.members members)) :
    Opens text := by
  cases h with
  | lastMember isName last => exact isName.opens.append _
  | member isName first rest =>
    rw [List.append_assoc]
    exact isName.opens.append _

end Heads

section Reading

/-- A text is read as a part of a document. -/
def Part.Read (text : List Char) : Part → Prop
  | .value v => ∀ rest, Ends rest → readValue (text ++ rest) = some (v, rest)
  | .element v => ∀ rest, Closes rest → readElement (text ++ rest) = some (v, rest)
  | .items vs => ∀ rest, readItems (text ++ ']' :: rest) = some (vs, rest)
  | .members ms => ∀ rest, readMembers (text ++ '\x7d' :: rest) = some (ms, rest)

variable {text rest : List Char}

/-- A word is read back as its value. -/
theorem readWord_eq {value : Json} (h : (text, value) ∈ words) (rest : List Char) :
    readValue (text ++ rest) = some (value, rest) := by
  simp only [words, List.mem_cons, Prod.mk.injEq, List.not_mem_nil, or_false] at h
  rcases h with ⟨rfl, rfl⟩ | ⟨rfl, rfl⟩ | ⟨rfl, rfl⟩ <;>
    simp [readValue, readWord, words, List.isPrefixOf]

/-- A number is told by its first character. -/
theorem readValue_number {value : Json} (h : NumberText text value) (hrest : Ends rest) :
    readValue (text ++ rest) = some (value, rest) := by
  have hread := h.readNumber_eq hrest
  obtain ⟨c, tail, rfl, hc⟩ := h.head
  have hall : ∀ d ∈ ['"', '[', '\x7b'], ¬ (d = '-' ∨ d.isDigit = true) := by simp
  have hne : ∀ d ∈ ['"', '[', '\x7b'], c ≠ d := by
    rintro d hd rfl
    exact hall c hd hc
  rw [List.cons_append, readValue, if_neg (hne _ (by simp)), if_neg (hne _ (by simp)),
    if_neg (hne _ (by simp)), if_pos hc]
  exact hread

/-- A quoted text is read back as its value. -/
theorem readValue_string {value : String} (h : Quoted text value) (rest : List Char) :
    readValue (text ++ rest) = some (.string value, rest) := by
  obtain ⟨tail, rfl, hread⟩ := h.readQuoted_eq
  rw [List.cons_append, readValue, if_pos rfl, hread]
  rfl

/-- An empty array is told by the character behind the blanks. -/
theorem readValue_emptyArray {gap : List Char} (h : Blank gap) (rest : List Char) :
    readValue ('[' :: (gap ++ ']' :: rest)) = some (.array [], rest) := by
  have hskip := skipBlanks_append h (stops_cons (by decide : ']' ∉ blanks) rest)
  rw [readValue, if_neg (by decide), if_pos rfl, hskip]
  rfl

/-- The items of an array are read behind its bracket. -/
theorem readValue_array (h : Opens text) (rest : List Char) :
    readValue ('[' :: (text ++ ']' :: rest)) =
      (readItems (text ++ ']' :: rest)).map fun (items, rest) => (.array items, rest) := by
  obtain ⟨c, hc, hskip⟩ := h
  obtain ⟨tail, htail⟩ := hskip (']' :: rest)
  have hne : c ≠ ']' := fun heq => hc (by rw [heq]; decide)
  rw [readValue, if_neg (by decide), if_pos rfl, htail]
  cases readItems (text ++ ']' :: rest) <;> simp [hne]

/-- An object without members is read back, whatever gap stands in it. -/
theorem readValue_emptyObject {gap : List Char} (h : Blank gap) (rest : List Char) :
    readValue ('\x7b' :: (gap ++ '\x7d' :: rest)) = some (.object [], rest) := by
  have hskip := skipBlanks_append h (stops_cons (by decide : '\x7d' ∉ blanks) rest)
  rw [readValue, if_neg (by decide), if_neg (by decide), if_pos rfl, hskip]
  rfl

/-- The members of an object are read behind its brace. -/
theorem readValue_object (h : Opens text) (rest : List Char) :
    readValue ('\x7b' :: (text ++ '\x7d' :: rest)) =
      (readMembers (text ++ '\x7d' :: rest)).map fun (members, rest) =>
        (.object members, rest) := by
  obtain ⟨c, hc, hskip⟩ := h
  obtain ⟨tail, htail⟩ := hskip ('\x7d' :: rest)
  have hne : c ≠ '\x7d' := fun heq => hc (by rw [heq]; decide)
  rw [readValue, if_neg (by decide), if_neg (by decide), if_pos rfl, htail]
  cases readMembers (text ++ '\x7d' :: rest) <;> simp [hne]

/-- A value is read with the blanks around it. -/
theorem readElement_eq {before after : List Char} {value : Json} (isBefore : Blank before)
    (hvalue : Denotes text (.value value)) (hread : Part.Read text (.value value))
    (isAfter : Blank after) : Part.Read (before ++ text ++ after) (.element value) := by
  intro rest hrest
  obtain ⟨c, tail, rfl, hc⟩ := head_value hvalue
  have hskip : skipBlanks (before ++ (c :: tail) ++ after ++ rest) =
      c :: tail ++ (after ++ rest) := by
    rw [List.append_assoc, List.append_assoc]
    exact skipBlanks_append isBefore (stops_cons (fun h => hc (List.mem_append_left _ h)) _)
  rw [readElement, hskip, hread _ (hrest.ends isAfter)]
  simp [skipBlanks_append isAfter hrest.stops]

/-- Behind an item and a comma the other items are read. -/
theorem readItems_comma {others : List Char} {value : Json} (hopens : Opens text)
    (h : readElement (text ++ ',' :: others) = some (value, ',' :: others)) :
    readItems (text ++ ',' :: others) =
      (readItems others).map fun (values, rest) => (value :: values, rest) := by
  rw [readItems, h, advance_some (hopens.length_lt _)]
  simp only [Option.bind_eq_bind, Option.bind_some, behind?_self]
  cases readItems others <;> rfl

/-- Behind a member and a comma the other members are read. -/
theorem readMembers_comma {name others : List Char} {key : String} {value : Json}
    (isName : Name name key) (hopens : Opens text)
    (h : readElement (text ++ ',' :: others) = some (value, ',' :: others)) :
    readMembers (name ++ ':' :: (text ++ ',' :: others)) =
      (readMembers others).map fun (members, rest) => ((key, value) :: members, rest) := by
  rw [readMembers, isName.readName_eq, advance_some (isName.opens.length_lt _)]
  simp only [Option.bind_eq_bind, Option.bind_some, behind?_self, h,
    advance_some (hopens.length_lt _)]
  cases readMembers others <;> rfl

/-- Every text of the grammar is read as what it denotes. -/
theorem Denotes.read {part : Part} (h : Denotes text part) : part.Read text := by
  induction h with
  | word listed => exact fun rest _ => readWord_eq listed rest
  | number isNumber => exact fun rest hrest => readValue_number isNumber hrest
  | string isQuoted => exact fun rest _ => readValue_string isQuoted rest
  | emptyArray isBlank =>
    intro rest _
    simpa using readValue_emptyArray isBlank rest
  | array inside ih =>
    intro rest _
    have hread := readValue_array (opens_items inside) rest
    simpa [ih rest] using hread
  | emptyObject isBlank =>
    intro rest _
    simpa using readValue_emptyObject isBlank rest
  | object inside ih =>
    intro rest _
    have hread := readValue_object (opens_members inside) rest
    simpa [ih rest] using hread
  | element isBefore inside isAfter ih => exact readElement_eq isBefore inside ih isAfter
  | lastItem last ih =>
    intro rest
    rw [readItems, ih _ (closes_cons (by simp) rest),
      advance_some ((opens_element last).length_lt _)]
    simp [behind?_self, behind?_of_ne]
  | @item text others value values first remaining ih ihs =>
    intro rest
    have hread := ih (',' :: (others ++ ']' :: rest)) (closes_cons (by simp) _)
    rw [List.append_assoc, List.cons_append, readItems_comma (opens_element first) hread, ihs rest]
    rfl
  | @lastMember name text key value isName last ih =>
    intro rest
    have hread := ih ('\x7d' :: rest) (closes_cons (by simp) _)
    rw [List.append_assoc, List.cons_append, readMembers, isName.readName_eq,
      advance_some (isName.opens.length_lt _)]
    simp [behind?_self, behind?_of_ne, hread, advance_some ((opens_element last).length_lt _)]
  | @member name text others key value members isName first remaining ih ihs =>
    intro rest
    have hread := ih (',' :: (others ++ '\x7d' :: rest)) (closes_cons (by simp) _)
    have hall := readMembers_comma isName (opens_element first) hread
    rw [ihs rest] at hall
    simpa using hall

end Reading

/-- A document is read as the value it denotes. -/
theorem decode_of_document {text : String} {value : Json} (h : Document text value) :
    decode text = some value := by
  have hread : readElement (text.toList ++ []) = some (value, []) := h.read [] (by simp [Closes])
  rw [List.append_nil] at hread
  simp [decode, hread]

/-- A document denotes one value. -/
theorem Document.unique {text : String} {value value' : Json} (h : Document text value)
    (h' : Document text value') : value = value' :=
  Option.some.inj ((decode_of_document h).symm.trans (decode_of_document h'))

end Moonbridge.Json
