import Moonbridge.Proofs.JavaScript.Meaning
import Moonbridge.Proofs.JavaScript.StringLiteral

/-!
# Keys that are texts

An index by a text is written with an accessor: a point and the text if it is a property name, and
the literal of the text in brackets otherwise. The test for property names lets one line break at
the end pass. Such a text is written behind a point too, where its line break only separates
lexemes, so that the accessor selects the property without the line break. All other accessors
select the property that the text names, and no two of them the same one.
-/

namespace Moonbridge.JavaScript

open Lexeme
open Text (Stops)

/-- The accessor of a key that is a text. -/
def accessor (key : String) : String :=
  indexSuffix (.literal (.text key)) (expression (.literal (.text key)))

/-- A text that can stand behind a point: a letter, an underscore or a dollar sign, and behind it
only these and digits. -/
def IsName (name : String) : Prop :=
  ∃ c rest, name.toList = c :: rest ∧ isNameStart c = true ∧ ∀ d ∈ rest, isNamePart d = true

/-- A property name with a line break behind it. -/
def IsBroken (key : String) : Prop := ∃ name, IsName name ∧ key = name ++ "\n"

/-- Code that selects a property wherever it follows the code of a table. -/
def Selects (suffix property : String) : Prop :=
  ∀ table : Expr, table.Legible → table.isAssignment = false →
    read (indexTarget table (expression table) ++ suffix) =
      some (.member (image table) (.text property))

section Names

variable {key name : String}

/-- No line break is part of a name. -/
theorem isNamePart_feed : isNamePart '\n' = false := by decide

/-- A text that can stand behind a point is written there. -/
theorem isPropertyName_of_isName (h : IsName name) : isPropertyName name = true := by
  obtain ⟨c, rest, htext, hstart, hparts⟩ := h
  have hlast : rest.getLast? ≠ some '\n' := by
    intro hlast
    have hfeed := hparts _ (List.mem_of_getLast? hlast)
    rw [isNamePart_feed] at hfeed
    cases hfeed
  simp only [isPropertyName, htext, hstart, if_neg hlast, Bool.true_and, List.all_eq_true]
  exact hparts

/-- A line break behind a property name is overlooked. -/
theorem isPropertyName_of_isBroken (h : IsBroken key) : isPropertyName key = true := by
  obtain ⟨name, ⟨c, rest, htext, hstart, hparts⟩, rfl⟩ := h
  have hkey : (name ++ "\n").toList = c :: (rest ++ ['\n']) := by simp [htext]
  simp only [isPropertyName, hkey, hstart, List.getLast?_concat, if_true, List.dropLast_concat,
    Bool.true_and, List.all_eq_true]
  exact hparts

/-- The test for property names accepts the names, and the names with a line break behind them. -/
theorem isPropertyName_iff : isPropertyName key = true ↔ IsName key ∨ IsBroken key := by
  refine ⟨fun h => ?_, fun h => h.elim isPropertyName_of_isName isPropertyName_of_isBroken⟩
  unfold isPropertyName at h
  split at h
  · cases h
  · rename_i c rest htext
    rw [Bool.and_eq_true, List.all_eq_true] at h
    obtain ⟨hstart, hparts⟩ := h
    split at hparts
    · rename_i hlast
      refine .inr ⟨String.ofList (c :: rest.dropLast), ⟨c, rest.dropLast, ?_, hstart, hparts⟩, ?_⟩
      · exact String.toList_ofList
      · apply String.toList_injective
        rw [htext, String.toList_append, String.toList_ofList]
        simp [List.dropLast_append_getLast? '\n' hlast]
    · exact .inl ⟨c, rest, htext, hstart, hparts⟩

/-- A name is not broken: it does not end with a line break. -/
theorem IsBroken.not_isName (h : IsBroken key) : ¬ IsName key := by
  obtain ⟨name, ⟨c, rest, htext, -, -⟩, rfl⟩ := h
  rintro ⟨c', rest', htext', -, hparts⟩
  have hkey : c :: (rest ++ ['\n']) = c' :: rest' := by simpa [htext] using htext'
  obtain ⟨rfl, rfl⟩ := List.cons.inj hkey
  have hfeed := hparts '\n' (by simp)
  rw [isNamePart_feed] at hfeed
  cases hfeed

/-- What can stand behind a point is read as a word. -/
theorem IsName.isWord (h : IsName name) : IsWord name.toList := by
  obtain ⟨c, rest, htext, hstart, hparts⟩ := h
  rw [htext]
  refine ⟨⟨c, rfl, isWordStart_of_isNameStart hstart⟩, List.forall_mem_cons.mpr ⟨?_, ?_⟩⟩
  · simp [isWordPart, isWordStart_of_isNameStart hstart]
  · exact fun d hd => isWordPart_of_isNamePart (hparts d hd)

end Names

section Selection

variable {suffix property property' : String}

/-- Code that is read as the lexemes of an accessor of any table selects what they select. -/
theorem selects_of_spells {items : List Lexeme}
    (hhead : suffix.toList.head? = some '.' ∨ suffix.toList.head? = some '[')
    (hspells : Spells suffix.toList items [])
    (hreads : ∀ {table : List Lexeme} {term : Term}, ReadsMember table term →
      ReadsMember (table ++ items) (.member term (.text property))) : Selects suffix property := by
  intro table htable hplain
  have hcode : Spells (indexTarget table (expression table)).toList
      (targetLexemes table (lexemes table)) (suffix.toList ++ []) := by
    apply spells_target hplain (spells_expression table htable)
    rwa [List.append_nil]
  have hall := hcode.append hspells
  have htarget := ((readsImage table htable).member hplain).target hplain
  have hread := (hreads htarget).expression.read [] (by simp [Closes])
  unfold Spells at hall
  rw [List.append_nil] at hall hread
  rw [read, String.toList_append, hall, Lexeme.readAll]
  simp [hread]

/-- A table that selections can be tried on. -/
def sampleTarget : Expr := .name (sampleToken .identifier "t")

private theorem legible_sampleTarget : sampleTarget.Legible where
  spelled := by
    rw [sampleTarget, Expr.spelled_name]
    exact ⟨⟨'t', rfl, by decide⟩, List.all_eq_true.mp (by decide)⟩
  safeKeys table name h := by simp [sampleTarget, Expr.parts] at h

/-- A suffix selects one property. -/
theorem Selects.unique (h : Selects suffix property) (h' : Selects suffix property') :
    property = property' := by
  have hread := h sampleTarget legible_sampleTarget rfl
  rw [h' sampleTarget legible_sampleTarget rfl] at hread
  simpa using hread.symm

end Selection

section Accessors

variable {key name : String}

/-- A key that is a property name is written behind a point. -/
theorem accessor_of_isName (h : IsName name) : accessor name = "." ++ name := by
  simp only [accessor, indexSuffix, if_pos (isPropertyName_of_isName h)]

/-- A line break behind a name is written as it is. -/
theorem accessor_of_isBroken (h : IsBroken key) : accessor key = "." ++ key := by
  simp only [accessor, indexSuffix, if_pos (isPropertyName_of_isBroken h)]

/-- A key of any other shape is written as a literal in brackets. -/
theorem accessor_of_other (hname : ¬ IsName key) (hbroken : ¬ IsBroken key) :
    accessor key = "[" ++ stringLiteral key ++ "]" := by
  have hother : ¬ isPropertyName key = true := fun h => (isPropertyName_iff.mp h).elim hname hbroken
  simp only [accessor, indexSuffix, if_neg hother, expression, literal]

/-- A line break is skipped. -/
theorem Spells.feed (rest : List Char) : Spells ['\n'] [] rest := by
  unfold Spells
  rw [List.singleton_append, readAll, if_pos (by decide)]
  simp

/-- In front of a line break, which is skipped, the name is read as it is without one. -/
theorem spells_broken (h : IsName name) (rest : List Char) :
    Spells ("." ++ (name ++ "\n")).toList [.symbol ".", .word name] rest := by
  have hstops : Stops isWordPart (['\n'] ++ rest) := by
    intro c hc
    obtain rfl : '\n' = c := by simpa using hc
    decide
  have htext : ("." ++ (name ++ "\n")).toList = ("." ++ name).toList ++ ['\n'] := by simp
  rw [htext]
  exact (spells_field h.isWord hstops).append (Spells.feed rest)

/-- Behind a point a property name selects the property of that name. -/
theorem selects_of_isName (h : IsName name) : Selects (accessor name) name := by
  rw [accessor_of_isName h]
  exact selects_of_spells (.inl (by simp)) (spells_field h.isWord (by simp [Stops]))
    fun htable => htable.field name

/-- The line break behind a name is lost. -/
theorem selects_of_isBroken (h : IsName name) : Selects (accessor (name ++ "\n")) name := by
  rw [accessor_of_isBroken ⟨name, h, rfl⟩]
  exact selects_of_spells (.inl (by simp)) (spells_broken h []) fun htable => htable.field name

/-- In brackets a key selects itself, whatever characters it has. -/
theorem selects_of_other (hname : ¬ IsName key) (hbroken : ¬ IsBroken key) :
    Selects (accessor key) key := by
  rw [accessor_of_other hname hbroken]
  exact selects_of_spells (.inr (by simp)) (spells_inBrackets (spells_string key _))
    fun htable => htable.bracket (readsMember_literal (.text key)).expression

/-- An accessor selects the property that its key names, unless the key is a name with a line break
behind it; then it selects the name. -/
theorem selects_accessor_iff {property : String} : Selects (accessor key) property ↔
    property = key ∧ ¬ IsBroken key ∨ IsName property ∧ key = property ++ "\n" := by
  by_cases hbroken : IsBroken key
  · obtain ⟨name, hname, rfl⟩ := id hbroken
    have hselects := selects_of_isBroken hname
    constructor
    · intro h
      obtain rfl := h.unique hselects
      exact .inr ⟨hname, rfl⟩
    · rintro (⟨-, hnot⟩ | ⟨-, heq⟩)
      · exact absurd hbroken hnot
      · obtain rfl : name = property := by simpa using heq
        exact hselects
  · have hselects : Selects (accessor key) key := by
      by_cases hname : IsName key
      · exact selects_of_isName hname
      · exact selects_of_other hname hbroken
    constructor
    · exact fun h => .inl ⟨h.unique hselects, hbroken⟩
    · rintro (⟨rfl, -⟩ | ⟨hname, heq⟩)
      · exact hselects
      · exact absurd ⟨property, hname, heq⟩ hbroken

end Accessors

section Sample

private theorem isName_sample : IsName "a" := ⟨'a', [], rfl, by decide, by simp⟩

private theorem feed_sample : "a\n" = "a" ++ "\n" := by decide

/-- Behind a point a name with a line break selects what the name alone selects. -/
theorem selects_feed : Selects (accessor "a\n") "a" := by
  rw [feed_sample]
  exact selects_of_isBroken isName_sample

end Sample

/-- A key that is a text keeps its identity, unless it is a property name with a line break behind
it. A property name stands behind a point, and any other key in brackets, as a literal that denotes
it. An accessor selects exactly the property that its key names; only a line break behind a name is
lost, so that two keys share a property only if they are a name without and with a line break. -/
theorem accessor_selects (key : String) :
    (IsName key → accessor key = "." ++ key) ∧
    (¬ IsName key → ¬ IsBroken key → accessor key = "[" ++ stringLiteral key ++ "]" ∧
      ∀ rest, StringLiteral.read ((stringLiteral key).toList ++ rest) = some (units key, rest)) ∧
    (∀ property, Selects (accessor key) property ↔
      property = key ∧ ¬ IsBroken key ∨ IsName property ∧ key = property ++ "\n") ∧
    ∀ other property, Selects (accessor key) property → Selects (accessor other) property →
      other = key ∨ IsName key ∧ other = key ++ "\n" ∨ IsName other ∧ key = other ++ "\n" := by
  refine ⟨accessor_of_isName, fun hname hbroken => ⟨accessor_of_other hname hbroken,
    StringLiteral.read_stringLiteral key⟩, fun property => selects_accessor_iff, ?_⟩
  intro other property hkey hother
  rcases selects_accessor_iff.mp hkey with ⟨rfl, -⟩ | ⟨hname, rfl⟩ <;>
    rcases selects_accessor_iff.mp hother with ⟨rfl, -⟩ | ⟨hname', rfl⟩
  · exact .inl rfl
  · exact .inr (.inl ⟨hname', rfl⟩)
  · exact .inr (.inr ⟨hname, rfl⟩)
  · exact .inl rfl

/-- The key `a b` is no name, stands in brackets and selects its own property; only the name `a` and
the same name with a line break behind it share one. -/
theorem accessor_selects_blank :
    (IsName "a" ∧ accessor "a" = "." ++ "a") ∧
    (¬ IsName "a b" ∧ ¬ IsBroken "a b" ∧ accessor "a b" = "[" ++ stringLiteral "a b" ++ "]" ∧
      Selects (accessor "a b") "a b") ∧
    Selects (accessor "a") "a" ∧ Selects (accessor "a\n") "a" ∧
      ("a\n" = "a" ∨ IsName "a" ∧ "a\n" = "a" ++ "\n" ∨ IsName "a\n" ∧ "a" = "a\n" ++ "\n") := by
  have hother : ¬ isPropertyName "a b" = true := by decide
  rw [isPropertyName_iff, not_or] at hother
  obtain ⟨hdot, -, -, hshared⟩ := accessor_selects "a"
  obtain ⟨-, hbrackets, hselects, -⟩ := accessor_selects "a b"
  have hfirst : Selects (accessor "a") "a" := selects_of_isName isName_sample
  exact ⟨⟨isName_sample, hdot isName_sample⟩,
    ⟨hother.1, hother.2, (hbrackets hother.1 hother.2).1,
      (hselects "a b").mpr (.inl ⟨rfl, hother.2⟩)⟩,
    hfirst, selects_feed, hshared "a\n" "a" hfirst selects_feed⟩

/-- The accessor of `a` with a line break behind it is neither a point and a name nor a literal in
brackets, and selects the property that the accessor of `a` selects. -/
theorem accessor_of_feed :
    (accessor "a\n" = ".a\n" ∧ ¬ IsName "a\n" ∧ ∀ code, accessor "a\n" ≠ "[" ++ code ++ "]") ∧
    ¬ Selects (accessor "a\n") "a\n" ∧ Selects (accessor "a\n") "a" ∧
      Selects (accessor "a") "a" := by
  have hbroken : IsBroken "a\n" := ⟨"a", isName_sample, feed_sample⟩
  have hcode : accessor "a\n" = ".a\n" := (accessor_of_isBroken hbroken).trans (by decide)
  refine ⟨⟨hcode, hbroken.not_isName, fun code heq => ?_⟩, fun h => ?_, selects_feed,
    selects_of_isName isName_sample⟩
  · have hhead := congrArg (fun s : String => s.toList.head?) (hcode.symm.trans heq)
    simp at hhead
  · exact absurd (h.unique selects_feed) (by decide)

end Moonbridge.JavaScript
