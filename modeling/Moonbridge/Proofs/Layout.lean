import Moonbridge.Proofs.JavaScript.Unlabeled
import Moonbridge.Proofs.Parser.Surroundings
import Moonbridge.Proofs.Stages
import Moonbridge.Proofs.Token.Respaced

/-!
# Layout does not matter

Where tokens differ in their lines only, the parser says the same of them: it reads programs that
differ in lines only and have one code, or it records the same errors at the same tokens, or it
runs out of both lists. So neither the code of a source nor the wording of its error depends on
blanks, line breaks and comments, except for the line that an error names.
-/

namespace Moonbridge

open Lexer (Respaced)

/-- Every token stands on no line. -/
def Relabeling.unplaced : Relabeling where
  token t := { t with line := 0 }
  kind_token _ := rfl
  lexeme_token _ := rfl
  literal_token _ := rfl

/-- The same problem at tokens that are the same up to their lines. -/
structure ParseError.Alike (e e' : ParseError) : Prop where
  problem : e.problem = e'.problem
  reason : e.reason = e'.reason
  token : e.token.Alike e'.token

/-- What the parser says of two token lists is the same up to lines. -/
inductive SameParse (tokens tokens' : List Token) : Prop
  | read {program program' : Program} (run : parse tokens = .ok program)
      (run' : parse tokens' = .ok program')
      (alike : program.map (Stmt.relabel .unplaced) = program'.map (Stmt.relabel .unplaced))
      (code : JavaScript.program program = JavaScript.program program')
  | rejected {e e' : ParseError} (run : parse tokens = .error (.rejected e))
      (run' : parse tokens' = .error (.rejected e')) (alike : e.Alike e')
      (errors : List.Forall₂ ParseError.Alike (diagnose tokens) (diagnose tokens'))
  | exhausted (run : parse tokens = .error .exhausted) (run' : parse tokens' = .error .exhausted)

section Tokens

/-- Two lists have the same images exactly if their members have, in pairs. -/
theorem map_eq_map_iff_forall₂ {α β : Type} {f : α → β} {l l' : List α} :
    l.map f = l'.map f ↔ List.Forall₂ (fun a b => f a = f b) l l' := by
  rw [← List.forall₂_eq_eq_eq, List.forall₂_map_left_iff, List.forall₂_map_right_iff]

/-- Tokens are alike exactly if they are equal without their lines. -/
theorem Token.unplaced_eq_iff {t u : Token} :
    Relabeling.unplaced.token t = Relabeling.unplaced.token u ↔ t.Alike u := by
  simp only [Relabeling.unplaced, Token.mk.injEq, and_true]
  exact ⟨fun ⟨hkind, hlexeme, hliteral⟩ => ⟨hkind, hlexeme, hliteral⟩,
    fun h => ⟨h.kind, h.lexeme, h.literal⟩⟩

/-- Errors that are equal without lines are alike. -/
theorem ParseError.alike_of_relabel {e e' : ParseError}
    (h : e.relabel .unplaced = e'.relabel .unplaced) : e.Alike e' := by
  obtain ⟨hproblem, htoken⟩ := ParseError.mk.inj h
  exact ⟨hproblem, by rw [reason, reason, hproblem], Token.unplaced_eq_iff.mp htoken⟩

/-- Two outcomes of the parser are the same up to lines if they are the same without lines. -/
theorem sameParse_of_relabel {tokens tokens' : List Token}
    (h : Parser.relabelOutcome .unplaced (parse tokens) =
      Parser.relabelOutcome .unplaced (parse tokens'))
    (hdiagnose : (diagnose tokens).map (ParseError.relabel .unplaced) =
      (diagnose tokens').map (ParseError.relabel .unplaced)) : SameParse tokens tokens' := by
  have herrors : List.Forall₂ ParseError.Alike (diagnose tokens) (diagnose tokens') :=
    (map_eq_map_iff_forall₂.mp hdiagnose).imp fun _ _ => ParseError.alike_of_relabel
  rcases hrun : parse tokens with (e | _) | program <;>
    rcases hrun' : parse tokens' with (e' | _) | program' <;>
    rw [hrun, hrun'] at h <;>
    simp only [Parser.relabelOutcome, Parser.Failure.relabel, Except.error.injEq,
      Except.ok.injEq, Parser.Failure.rejected.injEq, reduceCtorEq] at h
  · exact .rejected hrun hrun' (ParseError.alike_of_relabel h) herrors
  · exact .exhausted hrun hrun'
  · refine .read hrun hrun' h ?_
    rw [← JavaScript.program_relabel .unplaced program, h, JavaScript.program_relabel]

/-- The parser does not see the lines of tokens. -/
theorem sameParse_of_alike {tokens tokens' : List Token}
    (h : List.Forall₂ Token.Alike tokens tokens') : SameParse tokens tokens' := by
  have hmap : tokens.map Relabeling.unplaced.token = tokens'.map Relabeling.unplaced.token :=
    map_eq_map_iff_forall₂.mpr (h.imp fun _ _ => Token.unplaced_eq_iff.mpr)
  have hends : (∃ t ∈ tokens, t.isEnd = true) ↔ ∃ t ∈ tokens', t.isEnd = true := by
    have hany := congrArg (List.any · Token.isEnd) hmap
    simp only [List.any_map, Function.comp_def, Relabeling.isEnd_token] at hany
    rw [← List.any_eq_true, ← List.any_eq_true, hany]
  by_cases hend : ∃ t ∈ tokens, t.isEnd = true
  · obtain ⟨hparse, hdiagnose⟩ := Parser.parse_carried .unplaced hend []
    obtain ⟨hparse', hdiagnose'⟩ := Parser.parse_carried .unplaced (hends.mp hend) []
    rw [← hmap, hparse] at hparse'
    rw [← hmap, hdiagnose] at hdiagnose'
    exact sameParse_of_relabel hparse' hdiagnose'
  · have hnone : ∀ {ts : List Token}, (¬ ∃ t ∈ ts, t.isEnd = true) →
        parse ts = .error .exhausted := by
      intro ts hts
      refine Parser.parse_eq_exhausted_iff.mpr fun t ht => ?_
      exact Bool.eq_false_iff.mpr fun ht' => hts ⟨t, ht, ht'⟩
    exact .exhausted (hnone hend) (hnone (mt hends.mpr hend))

end Tokens

section Sources

/-- Errors of sources whose wordings are the same except for the lines they name. -/
def SourceError.SameWording (e e' : SourceError) : Prop :=
  ∃ (before after : String) (line line' : Int), e.line? = some line ∧ e'.line? = some line' ∧
    e.message = before ++ toString line ++ after ∧ e'.message = before ++ toString line' ++ after

/-- The message of a lexical fault names its line at the end. -/
theorem lexical_message (problem : Lexer.Problem) (line : Nat) :
    (SourceError.lexical ⟨problem, line⟩).message =
      "transpile error: " ++ (LexError.reason ⟨problem, 0⟩ ++ " at line ") ++
        toString (line : Int) ++ "" := by
  rw [String.append_empty]
  exact String.append_assoc.symm

/-- The texts around a line in a message. -/
theorem append_around (lead before line place colon reason : String) :
    lead ++ (before ++ line ++ place ++ colon ++ reason) =
      lead ++ before ++ line ++ (place ++ colon ++ reason) := by
  simp only [String.append_assoc]

/-- The message of a grammatical fault names its line at the front. -/
theorem grammatical_message (e : ParseError) :
    (SourceError.grammatical (.rejected e)).message =
      "transpile error: " ++ "line " ++ toString e.line ++
        ((if e.token.isEnd then " at end of input" else " near '" ++ e.token.lexeme ++ "'") ++
          ": " ++ e.reason) :=
  append_around ..

/-- Errors of the lexer for one problem are worded alike. -/
theorem sameWording_lexical (problem : Lexer.Problem) (line line' : Nat) :
    SourceError.SameWording (.lexical ⟨problem, line⟩) (.lexical ⟨problem, line'⟩) :=
  ⟨_, _, line, line', rfl, rfl, lexical_message problem line, lexical_message problem line'⟩

/-- Errors of the parser at tokens that are the same up to lines are worded alike. -/
theorem sameWording_grammatical {e e' : ParseError} (h : e.Alike e') :
    SourceError.SameWording (.grammatical (.rejected e)) (.grammatical (.rejected e')) := by
  refine ⟨_, _, e.line, e'.line, rfl, rfl, grammatical_message e, ?_⟩
  have hend : e.token.isEnd = e'.token.isEnd := by simp [Token.isEnd, h.token.kind]
  rw [hend, h.token.lexeme, h.reason]
  exact grammatical_message e'

/-- The code of a source, or the wording of its error up to the line, does not depend on gaps. -/
theorem compile_respaced {source source' : String}
    (h : Respaced source.toList source'.toList) :
    (∃ code, compile source = .ok code ∧ compile source' = .ok code) ∨
      ∃ e e', compile source = .error e ∧ compile source' = .error e' ∧ e.SameWording e' := by
  have hreading := tokenize_respaced h
  simp only [compile_eq_map]
  generalize htokens : tokenize source = outcome at hreading
  generalize htokens' : tokenize source' = outcome' at hreading
  cases hreading with
  | fault problem line line' =>
    rw [programOf_of_lexical htokens, programOf_of_lexical htokens']
    exact Or.inr ⟨_, _, rfl, rfl, sameWording_lexical problem line line'⟩
  | read alike =>
    rw [programOf_of_tokenize htokens, programOf_of_tokenize htokens']
    cases sameParse_of_alike alike with
    | read run run' same code =>
      rw [run, run']
      exact Or.inl ⟨_, rfl, congrArg Except.ok code.symm⟩
    | rejected run run' same errors =>
      rw [run, run']
      exact Or.inr ⟨_, _, rfl, rfl, sameWording_grammatical same⟩
    | exhausted run run' => exact absurd run (parse_ne_exhausted htokens)

end Sources

/-- Layout does not matter. What the parser says of tokens does not depend on their lines: it reads
programs that are the same up to lines and have one code, or records the same errors up to lines,
or runs out of tokens. So sources that differ in blanks, line breaks and comments between their
lexemes have the same code, or errors that are worded alike except for the line. -/
theorem layout_independent :
    (∀ tokens tokens' : List Token, List.Forall₂ Token.Alike tokens tokens' →
      SameParse tokens tokens') ∧
    ∀ source source' : String, Respaced source.toList source'.toList →
      (∃ code, compile source = .ok code ∧ compile source' = .ok code) ∨
        ∃ e e', compile source = .error e ∧ compile source' = .error e' ∧ e.SameWording e' :=
  ⟨fun _ _ => sameParse_of_alike, fun _ _ => compile_respaced⟩

section Sample

/-- The tokens of `x = y;` with line breaks in it, up to the mark of the end. -/
def scatteredTokens : List Token :=
  [⟨.identifier, "x", .nil, 1⟩, ⟨.assign, "=", .nil, 1⟩, ⟨.identifier, "y", .nil, 2⟩,
    ⟨.semicolon, ";", .nil, 2⟩, ⟨.endOfInput, "", .nil, 3⟩]

private theorem tokenize_scattered : tokenize "x=-- note\n\ty ;\n" = .ok scatteredTokens := by
  decide +kernel

private theorem alike_scattered : List.Forall₂ Token.Alike Parser.sampleTokens scatteredTokens := by
  repeat' constructor

private theorem respaced_scattered : Respaced "x = y;".toList "x=-- note\n\ty ;\n".toList :=
  respaced_of_tokenize tokenize_assignment tokenize_scattered alike_scattered

end Sample

/-- An assignment has the same program and the same code with a comment and line breaks in it. -/
theorem layout_independent_scattered :
    List.Forall₂ Token.Alike Parser.sampleTokens scatteredTokens ∧
      SameParse Parser.sampleTokens scatteredTokens ∧
      Respaced "x = y;".toList "x=-- note\n\ty ;\n".toList ∧
      ((∃ code, compile "x = y;" = .ok code ∧ compile "x=-- note\n\ty ;\n" = .ok code) ∨
        ∃ e e', compile "x = y;" = .error e ∧ compile "x=-- note\n\ty ;\n" = .error e' ∧
          e.SameWording e') :=
  ⟨alike_scattered, layout_independent.1 _ _ alike_scattered, respaced_scattered,
    layout_independent.2 _ _ respaced_scattered⟩

end Moonbridge
