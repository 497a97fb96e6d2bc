import Moonbridge.Proofs.Token.Stream

/-!
# Where lexemes end

A blank ends every lexeme but a string, and a string ends at its closing quote. So no lexeme that
starts where another one stands goes on behind the next blank, and a lexeme stands at its place
whatever follows that blank.
-/

namespace Moonbridge.Lexer

/-- A text that is empty or starts with a blank. -/
def LedByBlank (behind : List Char) : Prop := ∀ b ∈ behind.head?, b ∈ [' ', '\t', '\r', '\n']

variable {text text' mid behind behind' : List Char} {kind kind' : Kind} {value value' : Literal}
  {c : Char}

/-- The blanks and the quote belong to no number, word or symbol. -/
theorem separator_spec : ∀ c ∈ ['"', ' ', '\t', '\r', '\n'],
    isDigit c = false ∧ isWordPart c = false ∧ c ≠ '.' ∧ ∀ p ∈ symbols, c ∉ p.1 := by
  intro c hc
  simp only [List.mem_cons, List.not_mem_nil, or_false] at hc
  obtain rfl | rfl | rfl | rfl | rfl := hc <;> decide

/-- Quotes and blanks occur in no lexeme but a string. -/
theorem Lexeme.notMem_of_separator (h : Lexeme text kind value) (hkind : kind ≠ .string)
    (hc : c ∈ ['"', ' ', '\t', '\r', '\n']) : c ∉ text := by
  obtain ⟨hdigit, hword, hpoint, hsymbol⟩ := separator_spec c hc
  cases h with
  | string closed => exact absurd rfl hkind
  | whole nonempty isDigit =>
    intro hmem
    simp [isDigit c hmem] at hdigit
  | fractional wholeNonempty wholeDigit fractionNonempty fractionDigit =>
    intro hmem
    rcases List.mem_append.mp hmem with hmem | hmem
    · simp [wholeDigit c hmem] at hdigit
    rcases List.mem_cons.mp hmem with hmem | hmem
    · exact hpoint hmem
    · simp [fractionDigit c hmem] at hdigit
  | keyword listed =>
    intro hmem
    simp [(keyword_isWord listed).1.parts c hmem] at hword
  | identifier isWord unlisted =>
    intro hmem
    simp [isWord.parts c hmem] at hword
  | symbol listed => exact hsymbol _ listed

/-- A text without blanks ends where a blank stands. -/
theorem front_of_blankless {pre : List Char} (hbehind : LedByBlank behind)
    (htext : ∀ b ∈ [' ', '\t', '\r', '\n'], b ∉ text) (h : text <+: pre ++ behind) :
    text <+: pre := by
  rcases List.prefix_or_prefix_of_prefix h (List.prefix_append pre behind) with hpre | ⟨more, rfl⟩
  · exact hpre
  cases more with
  | nil => simp
  | cons b more =>
    obtain ⟨rest, rfl⟩ := (List.prefix_append_right_inj pre).mp h
    exact absurd (by simp) (htext b (hbehind b rfl))

/-- A string is a text without quotes between two of them. -/
theorem Lexeme.exists_body (h : Lexeme text .string value) :
    ∃ body, '"' ∉ body ∧ text = '"' :: body ++ ['"'] := by
  cases h with
  | string closed => exact ⟨_, closed, rfl⟩
  | keyword listed => exact absurd rfl (keyword_kind _ listed).1
  | symbol listed => exact absurd rfl (symbol_kind _ listed).1

/-- Only a string starts where a string starts. -/
theorem Lexeme.kind_ne_string (h : Lexeme text kind value) (hkind : kind ≠ .string)
    (h' : Lexeme text' kind' value') (hfront : text' <+: text ++ behind) : kind' ≠ .string := by
  rintro rfl
  obtain ⟨body, -, rfl⟩ := h'.exists_body
  obtain ⟨more, hmore⟩ := hfront
  obtain ⟨c, rest, hinput, -⟩ := h.covers []
  obtain rfl : text = c :: rest := by simpa using hinput
  obtain rfl : '"' = c := (List.cons.inj hmore).1
  exact h.notMem_of_separator hkind (by decide) List.mem_cons_self

/-- Where a lexeme stands, no other one goes on behind the next blank. -/
theorem Lexeme.front_of_ledByBlank (h : Lexeme text kind value)
    (h' : Lexeme text' kind' value') (hbehind : LedByBlank behind)
    (hfront : text' <+: text ++ mid ++ behind) : text' <+: text ++ mid := by
  by_cases hkind : kind = .string
  · -- A string is the longest lexeme at its place, whatever follows it.
    subst hkind
    obtain ⟨body, closed, rfl⟩ := h.exists_body
    have hlongest := cut_longest (cut_string closed (mid ++ behind)) h' (by simpa using hfront)
    refine List.prefix_of_prefix_length_le hfront (List.prefix_append _ _) ?_
    rw [List.length_append]
    exact Nat.le_add_right_of_le hlongest
  · have hkind' : kind' ≠ .string :=
      h.kind_ne_string hkind h' (List.append_assoc text mid behind ▸ hfront)
    refine front_of_blankless hbehind (fun b hb => ?_) hfront
    exact h'.notMem_of_separator hkind' (List.mem_cons_of_mem _ hb)

/-- A lexeme that stands somewhere also stands where a blank cuts off what follows it. -/
theorem Stands.of_ledByBlank (mid : List Char) (h : Stands text (mid ++ behind) kind value)
    (hbehind : LedByBlank behind') : Stands text (mid ++ behind') kind value where
  lexeme := h.lexeme
  longest := by
    intro text' kind' value' hlexeme hfront
    rw [← List.append_assoc] at hfront
    have hbefore := h.lexeme.front_of_ledByBlank hlexeme hbehind hfront
    have hstill := hbefore.trans (List.prefix_append _ behind)
    rw [List.append_assoc] at hstill
    exact h.longest hlexeme hstill
  noComment := by
    intro hkind hfront
    rw [← List.append_assoc] at hfront
    have hbefore := front_of_blankless hbehind (by simp) hfront
    have hstill := hbefore.trans (List.prefix_append _ behind)
    rw [List.append_assoc] at hstill
    exact h.noComment hkind hstill

end Moonbridge.Lexer
