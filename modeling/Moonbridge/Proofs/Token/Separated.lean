import Moonbridge.Proofs.Token.Borders
import Moonbridge.Proofs.Token.Respaced

/-!
# Lexemes with blanks between them

A lexeme of a source stands in front of a space too, whatever followed it before. So the lexemes of
a source with single spaces between them are read as the same tokens up to their lines, and joining
them once more changes nothing.
-/

namespace Moonbridge

namespace Lexer

section Spacing

variable {before input : List Char} {tokens : List Token}

/-- A space may be put in front of the second source. -/
theorem Respaced.space_right {input' : List Char} (h : Respaced input input') :
    Respaced input (' ' :: input') :=
  (h.symm.gap_left (.blank (by decide) .none)).symm

/-- The lexemes of a source with single spaces between them, and perhaps one behind them, make a
source that differs in gaps only. -/
theorem Decomposes.respaced (h : Decomposes before input tokens) (last : List (List Char))
    (hlast : [' '].intercalate last = []) :
    Respaced input ([' '].intercalate (tokens.map (·.lexeme.toList) ++ last)) := by
  induction h with
  | ended isGap =>
    rw [List.map_nil, List.nil_append, hlast]
    exact .ended isGap .none
  | @token before gap text rest kind value tokens isGap stands tail ih =>
    rw [List.map_cons, List.cons_append, String.toList_ofList]
    generalize tokens.map (·.lexeme.toList) ++ last = texts at ih ⊢
    -- Behind the lexeme stands nothing or a space, and behind the space the others.
    by_cases hnone : texts = []
    · subst hnone
      have hstands : Stands text [] kind value :=
        stands.of_ledByBlank [] (by simp [LedByBlank])
      rw [List.intercalate_singleton]
      simpa using Respaced.token isGap .none stands hstands ih
    · have hstands : Stands text (' ' :: [' '].intercalate texts) kind value :=
        stands.of_ledByBlank [] (by simp [LedByBlank])
      rw [List.intercalate_cons_of_ne_nil hnone]
      simpa using Respaced.token isGap .none stands hstands ih.space_right

end Spacing

end Lexer

/-- The lexemes of tokens with single spaces between them. -/
def respell (tokens : List Token) : String := " ".intercalate (tokens.map (·.lexeme))

section Respelling

variable {source : String} {tokens tokens' : List Token}

/-- Respelled tokens are their lexemes with single spaces between them. -/
theorem toList_respell (tokens : List Token) :
    (respell tokens).toList = [' '].intercalate (tokens.map (·.lexeme.toList)) := by
  rw [respell, String.toList_intercalate, List.map_map]
  rfl

/-- Tokens that are alike have the same lexemes. -/
theorem lexemes_of_alike (h : List.Forall₂ Token.Alike tokens tokens') :
    tokens.map (·.lexeme) = tokens'.map (·.lexeme) := by
  induction h with
  | nil => rfl
  | cons first others ih => rw [List.map_cons, List.map_cons, first.lexeme, ih]

/-- A source that differs in gaps only from one that is read is read as the same tokens. -/
theorem exists_alike_of_respaced (h : tokenize source = .ok tokens) {source' : String}
    (hrespaced : Lexer.Respaced source.toList source'.toList) :
    ∃ tokens', tokenize source' = .ok tokens' ∧ List.Forall₂ Token.Alike tokens tokens' := by
  have hreading := tokenize_respaced hrespaced
  rw [h] at hreading
  generalize tokenize source' = outcome at hreading
  cases hreading with
  | read alike => exact ⟨_, rfl, alike⟩

end Respelling

/-- The lexemes of the tokens of a source, with single spaces between them, are read as the same
tokens up to their lines, and give the same text again. It does not matter whether the empty text
of the mark of the end is joined to them. -/
theorem respell_stable {source : String} {tokens : List Token}
    (h : tokenize source = .ok tokens) :
    (∃ again, tokenize (respell tokens) = .ok again ∧
      List.Forall₂ Token.Alike tokens again ∧ respell again = respell tokens) ∧
    ∃ again, tokenize (respell tokens.dropLast) = .ok again ∧
      List.Forall₂ Token.Alike tokens again ∧
        respell again.dropLast = respell tokens.dropLast := by
  obtain ⟨inner, htokens, -, hinner⟩ := exists_inner_of_tokenize h
  constructor
  · have hrespaced : Lexer.Respaced source.toList (respell tokens).toList := by
      rw [toList_respell, htokens, List.map_append]
      exact hinner.respaced [[]] rfl
    obtain ⟨again, hagain, halike⟩ := exists_alike_of_respaced h hrespaced
    refine ⟨again, hagain, halike, ?_⟩
    rw [respell, respell, lexemes_of_alike halike]
  · have hrespaced : Lexer.Respaced source.toList (respell tokens.dropLast).toList := by
      rw [toList_respell, htokens, List.dropLast_concat]
      simpa using hinner.respaced [] rfl
    obtain ⟨again, hagain, halike⟩ := exists_alike_of_respaced h hrespaced
    refine ⟨again, hagain, halike, ?_⟩
    rw [respell, respell, List.map_dropLast, List.map_dropLast, lexemes_of_alike halike]

section Sample

/-- The tokens of a minus sign, a string with two hyphens and a line break in it, a comparison and
a name, without any blank between them. -/
def crowdedTokens : List Token :=
  [⟨.minus, "-", .nil, 1⟩, ⟨.string, "\"--\n\"", .text "--\n", 1⟩, ⟨.lessEqual, "<=", .nil, 2⟩,
    ⟨.identifier, "y", .nil, 2⟩, ⟨.endOfInput, "", .nil, 2⟩]

private theorem tokenize_crowded : tokenize "-\"--\n\"<=y" = .ok crowdedTokens := by
  decide +kernel

end Sample

/-- Tokens without blanks between them are read again with spaces between them. -/
theorem respell_stable_crowded :
    tokenize "-\"--\n\"<=y" = .ok crowdedTokens ∧
      (∃ again, tokenize (respell crowdedTokens) = .ok again ∧
        List.Forall₂ Token.Alike crowdedTokens again ∧ respell again = respell crowdedTokens) ∧
      ∃ again, tokenize (respell crowdedTokens.dropLast) = .ok again ∧
        List.Forall₂ Token.Alike crowdedTokens again ∧
          respell again.dropLast = respell crowdedTokens.dropLast :=
  ⟨tokenize_crowded, respell_stable tokenize_crowded⟩

end Moonbridge
