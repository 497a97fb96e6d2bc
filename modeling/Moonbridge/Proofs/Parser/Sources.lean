import Mathlib.Control.Monad.Basic
import Moonbridge.Compile
import Moonbridge.Proofs.Grammar.Spelled
import Moonbridge.Proofs.Parser.Correctness

/-!
# The programs of sources

The program of a source is read from the tokens of the source. So it consists of trees of the
grammar, all expressions in it are ones that a source can have, and its names are words.
-/

namespace Moonbridge

/-- A result does not depend on how errors are reported. -/
theorem mapError_eq_ok_iff {ε ε' α : Type} {f : ε → ε'} {x : Except ε α} {a : α} :
    x.mapError f = .ok a ↔ x = .ok a := by
  cases x with
  | error e => constructor <;> intro h <;> cases h
  | ok b => constructor <;> intro h <;> cases h <;> rfl

/-- What is reported stands for an error. -/
theorem mapError_eq_error_iff {ε ε' α : Type} {f : ε → ε'} {x : Except ε α} {e' : ε'} :
    x.mapError f = .error e' ↔ ∃ e, x = .error e ∧ e' = f e := by
  cases x with
  | error e =>
    constructor
    · intro h
      exact ⟨e, rfl, (Except.error.inj h).symm⟩
    · rintro ⟨e, h, rfl⟩
      cases h
      rfl
  | ok b =>
    constructor
    · intro h
      cases h
    · rintro ⟨e, h, -⟩
      cases h

/-- A source without tokens has the error of the lexer. -/
theorem programOf_of_lexical {source : String} {error : LexError}
    (h : tokenize source = .error error) : programOf source = .error (.lexical error) := by
  rw [programOf, tokensOf, h]
  rfl

/-- The program of a source with tokens is what the parser makes of them. -/
theorem programOf_of_tokenize {source : String} {tokens : List Token}
    (h : tokenize source = .ok tokens) :
    programOf source = (parse tokens).mapError .grammatical := by
  rw [programOf, tokensOf, h]
  rfl

/-- The program of a source is read from its tokens. -/
theorem programOf_eq_ok_iff {source : String} {program : Program} :
    programOf source = .ok program ↔
      ∃ tokens, tokenize source = .ok tokens ∧ parse tokens = .ok program := by
  cases htokens : tokenize source with
  | error e => simp [programOf_of_lexical htokens]
  | ok tokens =>
    rw [programOf_of_tokenize htokens, mapError_eq_ok_iff]
    simp

/-- Code is written from the program. -/
theorem compile_eq_map (source : String) :
    compile source = (programOf source).map JavaScript.program := by
  unfold compile
  cases programOf source <;> rfl

section Sample

/-- The source of the sample has the tokens of the sample. -/
theorem tokenize_assignment : tokenize "x = y;" = .ok Parser.sampleTokens := by decide +kernel

/-- The source of the sample is read as its tree. -/
theorem programOf_assignment : programOf "x = y;" = .ok [Parser.sampleTree] :=
  programOf_eq_ok_iff.mpr ⟨_, tokenize_assignment, Parser.parse_sample⟩

/-- The sample is written as it was read. -/
theorem compile_assignment : compile "x = y;" = .ok "x = y;" := by
  have hcode : JavaScript.program [Parser.sampleTree] = "x = y;" := by decide +kernel
  rw [compile_eq_map, programOf_assignment, ← hcode]
  rfl

end Sample

open Grammar

/-- A program that is read consists of the trees of accepted declarations, whose tokens are among
those it is read from and do not mark the end. -/
theorem declarations_of_parse {tokens : List Token} {program : Program}
    (h : parse tokens = .ok program) : ∃ ds : List (Phrase .declaration),
      program = ds.map Phrase.tree ∧ (∀ d ∈ ds, Parser.Accepted d) ∧
        ∀ d ∈ ds, ∀ t ∈ d.tokens, t ∈ tokens ∧ t.isEnd = false := by
  obtain ⟨gs, s', hruns, herrors, rfl⟩ := Parser.runs_of_parse h
  obtain ⟨ds, htokens, hstmts, haccepted⟩ := Parser.accepted_of_runs hruns rfl herrors
  refine ⟨ds, hstmts, haccepted, fun d hd t ht => ?_⟩
  have hmem : t ∈ gs.flatMap (·.tokens) := htokens ▸ List.mem_flatMap.mpr ⟨d, hd, ht⟩
  have hafter : tokens = gs.flatMap (·.tokens) ++ s'.after := hruns.after
  exact ⟨hafter ▸ List.mem_append_left _ hmem, Parser.inner_of_runs hruns t hmem⟩

/-- The expressions in the program of a source are ones that a source can have. -/
theorem spelled_of_programOf {source : String} {program : Program}
    (h : programOf source = .ok program) {e : Expr} (he : e ∈ Program.parts program) :
    e.Spelled := by
  obtain ⟨tokens, htokens, hparse⟩ := programOf_eq_ok_iff.mp h
  obtain ⟨ds, rfl, -, hds⟩ := declarations_of_parse hparse
  obtain ⟨top, htop, hpart⟩ := List.mem_flatMap.mp he
  have hspelled : ∀ stmt ∈ ds.map Phrase.tree, ∀ e ∈ stmt.expressions, e.Spelled := by
    intro stmt hstmt
    obtain ⟨d, hd, rfl⟩ := List.mem_map.mp hstmt
    exact d.spelled fun t ht => wellSpelled_of_tokenize htokens t (hds d hd t ht).1
  exact (Stmt.forall_expressionsOfAll.mpr hspelled top htop).part hpart

/-- The names that the program of a source declares are words. -/
theorem isWord_of_programOf {source : String} {program : Program}
    (h : programOf source = .ok program) {t : Token} (ht : t ∈ Stmt.namesOfAll program) :
    Lexer.IsWord t.lexeme.toList := by
  obtain ⟨tokens, htokens, hparse⟩ := programOf_eq_ok_iff.mp h
  obtain ⟨ds, rfl, -, hds⟩ := declarations_of_parse hparse
  have hwords : ∀ stmt ∈ ds.map Phrase.tree, ∀ t ∈ stmt.names, Lexer.IsWord t.lexeme.toList := by
    intro stmt hstmt t ht
    obtain ⟨d, hd, rfl⟩ := List.mem_map.mp hstmt
    obtain ⟨hmem, hkind⟩ := d.names_subset t ht
    have hspelled := wellSpelled_of_tokenize htokens t (hds d hd t hmem).1
    rwa [Token.WellSpelled, hkind] at hspelled
  exact Stmt.forall_namesOfAll.mpr hwords t ht

end Moonbridge
