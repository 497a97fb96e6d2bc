import Moonbridge.Proofs.Json.Unambiguous

/-!
# Printed documents

A value whose numbers are finite is printed as a text that denotes it, in every layout: a character
is escaped as the units it stands for, a number is written with the digits of its shortest decimal,
and what the layout adds is blank.
-/

namespace Moonbridge

/-- Whether a double is a number and not an infinity. -/
def Double.isFinite (x : Double) : Bool := x.magnitude.val < infiniteMagnitude

/-- The finite doubles are those below infinity. -/
theorem Double.isFinite_iff_lt {x : Double} :
    x.isFinite = true ↔ x.magnitude.val < infiniteMagnitude := decide_eq_true_iff

/-- The finite doubles are those that are neither infinite nor no number. -/
theorem Double.isFinite_iff {x : Double} :
    x.isFinite = true ↔ x.isNaN = false ∧ x.isInfinite = false := by
  simp only [isFinite_iff_lt, isNaN, isInfinite, decide_eq_false_iff_not, beq_eq_false_iff_ne]
  omega

/-- What is not finite is not zero. -/
theorem Double.isZero_of_not_isFinite {x : Double} (h : x.isFinite = false) :
    x.isZero = false := by
  have hle : infiniteMagnitude ≤ x.magnitude.val := by simpa [isFinite] using h
  have hpos : 0 < infiniteMagnitude := by decide
  simp only [isZero, beq_eq_false_iff_ne, ne_eq]
  omega

/-- A finite number other than zero is laid out behind its sign. -/
theorem NumberFormat.write_of_isFinite {f : NumberFormat} {x : Double} (h : x.isFinite = true) :
    f.write x = if x.isZero then if x.negative then f.negativeZero else f.zero
      else String.ofList ((if x.negative then ['-'] else []) ++
        f.layout x.shortest.digits x.shortest.point) := by
  obtain ⟨hnan, hinfinite⟩ := Double.isFinite_iff.mp h
  unfold write
  rw [hnan, hinfinite]
  cases x.negative <;> simp

namespace Json

open Text (zeroPadded zeroPadded_succ)
open Numeral (Digits Whole Fraction Exponent Parts)

mutual

/-- The doubles in a value. -/
@[simp] def numbers : Json → List Double
  | number value => [value]
  | array items => numbersOfItems items
  | object members => numbersOfMembers members
  | null | bool _ | int _ | string _ => []

/-- The doubles in the items of an array. -/
@[simp] def numbersOfItems : List Json → List Double
  | [] => []
  | item :: items => item.numbers ++ numbersOfItems items

/-- The doubles in the members of an object. -/
@[simp] def numbersOfMembers : List (String × Json) → List Double
  | [] => []
  | (_, value) :: members => value.numbers ++ numbersOfMembers members

end

/-- The numbers of a value are all finite. -/
def Finite (value : Json) : Prop := ∀ x ∈ value.numbers, x.isFinite = true

/-- The numbers in an array are those in its items. -/
theorem mem_numbersOfItems {x : Double} {items : List Json} :
    x ∈ numbersOfItems items ↔ ∃ item ∈ items, x ∈ item.numbers := by
  induction items with
  | nil => simp
  | cons item items ih => simp [ih]

/-- The numbers in an object are those in the values of its members. -/
theorem mem_numbersOfMembers {x : Double} {members : List (String × Json)} :
    x ∈ numbersOfMembers members ↔ ∃ member ∈ members, x ∈ member.2.numbers := by
  induction members with
  | nil => simp
  | cons member members ih => simp [ih]

/-- An array is finite if its items are. -/
theorem finite_array {items : List Json} : (array items).Finite ↔ ∀ item ∈ items, item.Finite := by
  simp only [Finite, numbers, mem_numbersOfItems]
  exact ⟨fun h item hitem x hx => h x ⟨item, hitem, hx⟩,
    fun h x ⟨item, hitem, hx⟩ => h item hitem x hx⟩

/-- An object is finite if its values are. -/
theorem finite_object {members : List (String × Json)} :
    (object members).Finite ↔ ∀ member ∈ members, member.2.Finite := by
  simp only [Finite, numbers, mem_numbersOfMembers]
  exact ⟨fun h member hmember x hx => h x ⟨member, hmember, hx⟩,
    fun h x ⟨member, hmember, hx⟩ => h member hmember x hx⟩

section Numbers

/-- The sign of a number is written as the grammar has it. -/
theorem sign_text (negative : Bool) : Sign (if negative then ['-'] else []) negative := by
  cases negative with
  | false => exact .none
  | true => exact .minus

/-- A whole number is printed as its numeral behind its sign. -/
theorem numberText_int (value : Int) : NumberText (toString value).toList (.int value) := by
  cases value with
  | ofNat n =>
    have htext : (toString (Int.ofNat n)).toList = [] ++ Nat.toDigits 10 n := Nat.toList_repr
    have hvalue : Int.ofNat n = signed false (Decimal.ofDigits (Nat.toDigits 10 n)) := by
      simp [signed]
    rw [htext, hvalue]
    exact .whole .none (Numeral.whole_toDigits n)
  | negSucc n =>
    have hnumeral : toString (Int.negSucc n) = "-" ++ (n + 1).repr := rfl
    have htext : (toString (Int.negSucc n)).toList = ['-'] ++ Nat.toDigits 10 (n + 1) := by
      rw [hnumeral, String.toList_append, Nat.toList_repr]
      rfl
    have hvalue : Int.negSucc n = signed true (Decimal.ofDigits (Nat.toDigits 10 (n + 1))) := by
      simp [signed, Int.negSucc_eq]
    rw [htext, hvalue]
    exact .whole .minus (Numeral.whole_toDigits (n + 1))

/-- A finite number is written behind its sign, and a zero with its fraction. -/
theorem toList_write {x : Double} (h : x.isFinite = true) :
    (numberFormat.write x).toList = (if x.negative then ['-'] else []) ++
      if x.isZero then ['0', '.', '0'] else
        numberFormat.layout x.shortest.digits x.shortest.point := by
  rw [NumberFormat.write_of_isFinite h]
  cases x.negative <;> cases x.isZero <;> simp [numberFormat]

/-- A zero is printed with its fraction. -/
theorem numberText_zero {x : Double} (h : x.isZero = true) :
    NumberText ((if x.negative then ['-'] else []) ++ ['0', '.', '0']) (.number x) := by
  have hwhole : Whole ['0'] := ⟨⟨by simp, by simp⟩, fun _ => rfl⟩
  let p : Parts := ⟨_, _, _, _, _, hwhole, .point hwhole.toDigits, .none⟩
  have hnearest : nearest x.negative p.decimal = x := by
    obtain ⟨negative, magnitude⟩ := x
    have hmagnitude : magnitude = 0 := Fin.ext (by simpa [Double.isZero] using h)
    rw [hmagnitude]
    rfl
  have htext := NumberText.real (sign_text x.negative) p (Or.inl (by simp [p]))
  rwa [hnearest] at htext

/-- The digits of a number other than zero are printed with a fraction or an exponent. -/
theorem numberText_layout {x : Double} (h : x.isFinite = true) (hzero : x.isZero = false) :
    NumberText ((if x.negative then ['-'] else []) ++
      numberFormat.layout x.shortest.digits x.shortest.point) (.number x) := by
  have hlt := Double.isFinite_iff_lt.mp h
  have hpos : 0 < x.magnitude.val := by
    simp only [Double.isZero, beq_eq_false_iff_ne, ne_eq] at hzero
    omega
  have hending : Fraction numberFormat.wholeEnding (List.replicate 1 '0') :=
    .point (Numeral.digits_toDigits 0)
  obtain ⟨p, hp, hvalue, hreal⟩ := Numeral.lays_shortest hpos hending
  -- The interval that rounds to a number does not depend on the sign.
  have hrounds : (Double.mk false x.magnitude).Rounds p.decimal.value := by
    rw [hvalue]
    exact Double.shortest_rounds hpos
  have hdouble : p.decimal.toDouble = ⟨false, x.magnitude⟩ :=
    Decimal.toDouble_of_rounds rfl hpos hlt.le hrounds
  have hnearest : nearest x.negative p.decimal = x := by rw [nearest, hdouble]
  have htext := NumberText.real (sign_text x.negative) p (hreal (by simp [numberFormat]))
  rwa [hp, hnearest] at htext

/-- A finite number is printed as a text that denotes it. -/
theorem numberText_write {x : Double} (h : x.isFinite = true) :
    NumberText (numberFormat.write x).toList (.number x) := by
  rw [toList_write h]
  cases hzero : x.isZero with
  | true => exact numberText_zero hzero
  | false => exact numberText_layout h hzero

end Numbers

section Strings

/-- A hexadecimal digit is read back as its value. -/
theorem hexValue?_digitChar {n : Nat} (h : n < 16) : hexValue? n.digitChar = some n := by
  have hall : ∀ n < 16, hexValue? n.digitChar = some n := by decide
  exact hall n h

/-- The escape of a unit stands for the unit. -/
theorem units_unitEscape {unit : Nat} (h : unit < 0x10000) {text : List Char} {units : List Nat}
    (tail : Units text units) : Units (unitEscape unit ++ text) (unit :: units) := by
  have hfirst : zeroPadded 16 1 (unit / 16 / 16 / 16) = [(unit / 16 / 16 / 16).digitChar] := by
    rw [zeroPadded, Nat.toDigits_of_lt_base (by omega)]
    rfl
  have hdigits : zeroPadded 16 4 unit = [(unit / 16 / 16 / 16).digitChar,
      (unit / 16 / 16 % 16).digitChar, (unit / 16 % 16).digitChar, (unit % 16).digitChar] := by
    rw [zeroPadded_succ (by decide), zeroPadded_succ (by decide), zeroPadded_succ (by decide),
      hfirst]
    rfl
  have hunit : unitOf? (unit / 16 / 16 / 16).digitChar (unit / 16 / 16 % 16).digitChar
      (unit / 16 % 16).digitChar (unit % 16).digitChar = some unit := by
    have hvalue : (((unit / 16 / 16 / 16) * 16 + unit / 16 / 16 % 16) * 16 + unit / 16 % 16) * 16 +
        unit % 16 = unit := by omega
    rw [unitOf?, hexValue?_digitChar (by omega), hexValue?_digitChar (by omega),
      hexValue?_digitChar (by omega), hexValue?_digitChar (by omega)]
    simp [hvalue]
  rw [unitEscape, hdigits]
  exact .numbered hunit tail

/-- A printed character stands for its units. -/
theorem units_stringChar (c : Char) {text : List Char} {units : List Nat}
    (tail : Units text units) : Units (stringChar c ++ text) (utf16 c ++ units) := by
  have hshort : ∀ {letter c : Char}, (letter, c) ∈ shortEscapes →
      Units (['\\', letter] ++ text) (utf16 c ++ units) := fun listed => .short listed tail
  unfold stringChar
  iterate 7
    split
    · subst c
      exact hshort (by decide)
  split
  · rename_i hquote hslash _ _ _ _ _ hplain
    exact .plain (by simp [isPlain, hplain.1, hquote, hslash]) tail
  split
  · rename_i hsmall
    rw [utf16, if_pos hsmall]
    exact units_unitEscape hsmall tail
  · rename_i hlarge
    have hvalid : c.toNat < 0xd800 ∨ 0xdfff < c.toNat ∧ c.toNat < 0x110000 := c.valid
    rw [utf16, if_neg hlarge, List.append_assoc]
    exact units_unitEscape (by omega) (units_unitEscape (by omega) tail)

/-- A printed string denotes the string. -/
theorem quoted_quoted (text : String) : Quoted (quoted text).toList text := by
  have hunits : ∀ cs : List Char, Units (cs.flatMap stringChar) (cs.flatMap utf16) := by
    intro cs
    induction cs with
    | nil => exact .nil
    | cons c cs ih => exact units_stringChar c ih
  rw [quoted, String.toList_ofList]
  exact .mk (hunits text.toList)

end Strings

section Layouts

variable {layout : Layout} {level : Nat}

theorem blank_nil : Blank [] := by simp [Blank]

/-- What a layout puts around items is a gap. -/
theorem blank_gap (layout : Layout) (level : Nat) : Blank (layout.gap level).toList := by
  cases layout with
  | line => simp [Layout.gap, Blank]
  | indented width =>
    intro c hc
    simp only [Layout.gap, String.toList_append, String.toList_ofList, List.mem_append] at hc
    rcases hc with hc | hc
    · obtain rfl : c = '\n' := by simpa using hc
      decide
    · rw [List.eq_of_mem_replicate hc]
      decide

/-- What stands behind the comma between two items. -/
def Layout.space (layout : Layout) (level : Nat) : List Char := (layout.separator level).toList.tail

/-- Items are separated by a comma and the space of the layout. -/
theorem toList_separator (layout : Layout) (level : Nat) :
    (layout.separator level).toList = ',' :: layout.space level := by
  cases layout <;> simp [Layout.space, Layout.separator]

/-- The space of a layout is a gap. -/
theorem blank_space (layout : Layout) (level : Nat) : Blank (layout.space level) := by
  cases layout with
  | line => simp [Layout.space, Layout.separator, Blank, blanks]
  | indented width =>
    have hgap := blank_gap (.indented width) level
    simpa [Layout.space, Layout.separator] using hgap

/-- The texts of the items of an array and what stands between them. -/
def itemsText (layout : Layout) (level : Nat) (items : List Json) : List Char :=
  ((layout.separator level).intercalate (renderItems layout level items)).toList

/-- A single item is written without separators. -/
theorem itemsText_singleton (item : Json) :
    itemsText layout level [item] = (render layout level item).toList := by
  simp [itemsText, renderItems]

/-- The first of several items stands in front of a comma. -/
theorem itemsText_cons (item second : Json) (others : List Json) :
    itemsText layout level (item :: second :: others) = (render layout level item).toList ++
      ',' :: (layout.space level ++ itemsText layout level (second :: others)) := by
  simp [itemsText, renderItems, toList_separator]

/-- The texts of the members of an object and what stands between them. -/
def membersText (layout : Layout) (level : Nat) (members : List (String × Json)) : List Char :=
  ((layout.separator level).intercalate (renderMembers layout level members)).toList

/-- A single member is written without separators. -/
theorem membersText_singleton (key : String) (value : Json) :
    membersText layout level [(key, value)] =
      (quoted key).toList ++ ':' :: ' ' :: (render layout level value).toList := by
  simp [membersText, renderMembers]

/-- The first of several members stands in front of a comma. -/
theorem membersText_cons (key : String) (value : Json) (second : String × Json)
    (others : List (String × Json)) :
    membersText layout level ((key, value) :: second :: others) =
      (quoted key).toList ++ ':' :: ' ' :: (render layout level value).toList ++
        ',' :: (layout.space level ++ membersText layout level (second :: others)) := by
  simp [membersText, renderMembers, toList_separator]

/-- An array is printed as its items between brackets. -/
theorem toList_render_array {items : List Json} (hne : items ≠ []) :
    (render layout level (.array items)).toList = '[' :: ((layout.gap (level + 1)).toList ++
      itemsText layout (level + 1) items ++ (layout.gap level).toList) ++ [']'] := by
  obtain ⟨item, others, rfl⟩ := List.exists_cons_of_ne_nil hne
  simp [render, renderItems, Layout.enclose, itemsText]

/-- An object is printed as its members between braces. -/
theorem toList_render_object {members : List (String × Json)} (hne : members ≠ []) :
    (render layout level (.object members)).toList = '\x7b' :: ((layout.gap (level + 1)).toList ++
      membersText layout (level + 1) members ++ (layout.gap level).toList) ++ ['\x7d'] := by
  obtain ⟨member, others, rfl⟩ := List.exists_cons_of_ne_nil hne
  simp [render, renderMembers, Layout.enclose, membersText]

end Layouts

section Values

variable {layout : Layout} {level : Nat} {before after : List Char}

/-- The texts of items denote the items, with blanks around them. -/
theorem denotes_items {items : List Json} (hne : items ≠ [])
    (h : ∀ item ∈ items, Denotes (render layout level item).toList (.value item))
    (hbefore : Blank before) (hafter : Blank after) :
    Denotes (before ++ itemsText layout level items ++ after) (.items items) := by
  have hspace := blank_space layout level
  induction items generalizing before with
  | nil => exact absurd rfl hne
  | cons item items ih =>
    have hfirst := h item List.mem_cons_self
    cases items with
    | nil =>
      rw [itemsText_singleton]
      exact .lastItem (.element hbefore hfirst hafter)
    | cons second others =>
      have hothers := ih (by simp) (fun v hv => h v (List.mem_cons_of_mem _ hv)) hspace
      have hall := Denotes.item (.element hbefore hfirst blank_nil) hothers
      rw [itemsText_cons]
      simpa using hall

/-- The name of a member stands in front of the colon. -/
theorem name_quoted (hbefore : Blank before) (key : String) :
    Name (before ++ (quoted key).toList ++ []) key :=
  .mk hbefore (quoted_quoted key) blank_nil

/-- The texts of members denote the members, with blanks around them. -/
theorem denotes_members {members : List (String × Json)} (hne : members ≠ [])
    (h : ∀ member ∈ members, Denotes (render layout level member.2).toList (.value member.2))
    (hbefore : Blank before) (hafter : Blank after) :
    Denotes (before ++ membersText layout level members ++ after) (.members members) := by
  have hcolon : Blank [' '] := by simp [Blank, blanks]
  have hspace := blank_space layout level
  induction members generalizing before with
  | nil => exact absurd rfl hne
  | cons member members ih =>
    obtain ⟨key, value⟩ := member
    have hname := name_quoted hbefore key
    have hfirst := h (key, value) List.mem_cons_self
    cases members with
    | nil =>
      have hlast := Denotes.lastMember hname (.element hcolon hfirst hafter)
      rw [membersText_singleton]
      simpa using hlast
    | cons second others =>
      have hothers := ih (by simp) (fun m hm => h m (List.mem_cons_of_mem _ hm)) hspace
      have hall := Denotes.member hname (.element hcolon hfirst blank_nil) hothers
      rw [membersText_cons]
      simpa using hall

/-- A property of values holds if it passes from the items of an array and from the members of an
object to the whole. -/
theorem induction_on {P : Json → Prop} (value : Json) (null : P .null) (bool : ∀ b, P (.bool b))
    (int : ∀ n, P (.int n)) (number : ∀ x, P (.number x)) (string : ∀ text, P (.string text))
    (array : ∀ items, (∀ item ∈ items, P item) → P (.array items))
    (object : ∀ members, (∀ member ∈ members, P member.2) → P (.object members)) : P value :=
  @Json.rec P (fun items => ∀ item ∈ items, P item)
    (fun members => ∀ member ∈ members, P member.2) (fun member => P member.2)
    null bool int number string array object
    (by simp) (fun _ _ first others => List.forall_mem_cons.mpr ⟨first, others⟩)
    (by simp) (fun _ _ first others => List.forall_mem_cons.mpr ⟨first, others⟩)
    (fun _ _ value => value) value

/-- The text of a value with finite numbers denotes the value. -/
theorem denotes_render (layout : Layout) (level : Nat) {value : Json} (h : value.Finite) :
    Denotes (render layout level value).toList (.value value) := by
  induction value using Json.induction_on generalizing level with
  | null => exact .word (by simp [render, words])
  | bool value => cases value <;> exact .word (by simp [render, words])
  | int value => exact .number (numberText_int value)
  | number x => exact .number (numberText_write (h x (by simp)))
  | string value => exact .string (quoted_quoted value)
  | array items ih =>
    have hitems : ∀ item ∈ items, Denotes (render layout (level + 1) item).toList (.value item) :=
      fun item hitem => ih item hitem (level + 1) (finite_array.mp h item hitem)
    by_cases hne : items = []
    · subst hne
      have htext := Denotes.emptyArray blank_nil
      simpa [render, renderItems, Layout.enclose] using htext
    · rw [toList_render_array hne]
      exact .array (denotes_items hne hitems (blank_gap _ _) (blank_gap _ _))
  | object members ih =>
    have hmembers : ∀ member ∈ members,
        Denotes (render layout (level + 1) member.2).toList (.value member.2) :=
      fun member hmember => ih member hmember (level + 1) (finite_object.mp h member hmember)
    by_cases hne : members = []
    · subst hne
      have htext := Denotes.emptyObject blank_nil
      simpa [render, renderMembers, Layout.enclose] using htext
    · rw [toList_render_object hne]
      exact .object (denotes_members hne hmembers (blank_gap _ _) (blank_gap _ _))

end Values

end Json

end Moonbridge
