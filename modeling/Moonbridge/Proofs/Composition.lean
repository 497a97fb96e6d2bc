import Moonbridge.Proofs.JavaScript.Unlabeled
import Moonbridge.Proofs.Parser.Sources
import Moonbridge.Proofs.Parser.Surroundings
import Moonbridge.Proofs.Token.Joined

/-!
# Sources one behind the other

A source that has code can stand in front of any other source, on lines of its own. The lexer and
the parser are at its end as they are at the start of a source, so that the other source has the
code or the error that it has alone. Only lines differ: an error is as many lines further down as
the first source takes.
-/

namespace Moonbridge

namespace Parser

open Grammar

/-- A program without errors takes the tokens in front of the mark of the end. -/
theorem inner_eq_tokens {inner : List Token} {mark : Token} {s' : State} {gs : List Segment}
    (h : Runs (.start (inner ++ [mark])) gs s') (hinner : ∀ t ∈ inner, t.isEnd = false) :
    inner = gs.flatMap (·.tokens) := by
  obtain ⟨mark', beyond, hafter, hmark'⟩ := h.atMark
  have hsplit : inner ++ [mark] = gs.flatMap (·.tokens) ++ mark' :: beyond := by
    rw [← hafter]
    exact h.after
  rcases List.append_eq_append_iff.mp hsplit with ⟨others, hread, hrest⟩ | ⟨others, hread, hrest⟩
  · cases others with
    | nil => simpa using hread.symm
    | cons t others => simp at hrest
  · cases others with
    | nil => simpa using hread
    | cons t others =>
      obtain ⟨rfl, -⟩ := List.cons.inj hrest
      have hlast := hinner mark' (by rw [hread]; simp)
      simp [hmark'] at hlast

/-- Behind the tokens of a program the parser reads on as at the start. -/
theorem parse_following {inner ts : List Token} {mark : Token} {program : Program}
    (h : parse (inner ++ [mark]) = .ok program) (hinner : ∀ t ∈ inner, t.isEnd = false)
    (hend : ∃ t ∈ ts, t.isEnd = true) :
    parse (inner ++ ts) = (parse ts).map (program ++ ·) := by
  obtain ⟨gs, s₁, hruns, herrors, rfl⟩ := runs_of_parse h
  obtain ⟨ds, htokens, hstmts, hds⟩ := accepted_of_runs hruns rfl herrors
  obtain rfl := (inner_eq_tokens hruns hinner).trans htokens
  obtain ⟨others, s', hothers⟩ := exists_runs (.start ts) hend
  have hne : ts ≠ [] := by
    rintro rfl
    simp at hend
  have hwithin := hothers.within hend (ds.flatMap Phrase.tokens).reverse [] #[]
  have hjoined := runs_of_accepted hds hne (s := .start (ds.flatMap Phrase.tokens ++ ts)) rfl rfl
    (by simpa [State.pass, State.start] using hwithin)
  rw [parse_of_runs hjoined, parse_of_runs hothers, List.flatMap_append, errors_segmentOf,
    List.filterMap_append, stmts_segmentOf, hstmts, List.nil_append]
  cases others.flatMap (·.errors) <;> rfl

end Parser

/-- The same error a number of lines further down. -/
def SourceError.later (lines : Nat) : SourceError → SourceError
  | lexical error => lexical (error.later lines)
  | grammatical failure => grammatical (failure.relabel (.later lines))

/-- The lines that a source takes where another one follows it. -/
def linesOf (source : String) : Nat := 1 + source.toList.count '\n'

/-- The program of two sources is that of the first one and that of the second one, or the error
of the second one, on later lines. -/
theorem programOf_joined {first : String} {program : Program} (h : programOf first = .ok program)
    (second : String) : programOf (first ++ "\n" ++ second) =
      ((programOf second).map fun others =>
        program ++ others.map (Stmt.relabel (.later (linesOf first)))).mapError
          (.later (linesOf first)) := by
  obtain ⟨tokens, htokens, hparse⟩ := programOf_eq_ok_iff.mp h
  obtain ⟨inner, rfl, hjoined⟩ := tokenize_joined htokens second
  obtain ⟨inner', hinner', hnoEnd, -⟩ := exists_inner_of_tokenize htokens
  obtain rfl := List.append_cancel_right hinner'
  cases hsecond : tokenize second with
  | error e =>
    rw [hsecond] at hjoined
    rw [programOf_of_lexical hjoined, programOf_of_lexical hsecond]
    rfl
  | ok ts =>
    rw [hsecond] at hjoined
    rw [programOf_of_tokenize hjoined, programOf_of_tokenize hsecond]
    obtain ⟨t, ht, hend⟩ := hasEnd_of_tokenize hsecond
    have hcarried := (Parser.parse_carried (.later (linesOf first)) ⟨t, ht, hend⟩ []).1
    rw [List.append_nil] at hcarried
    have hfollowing := Parser.parse_following hparse hnoEnd
      ⟨(Relabeling.later (linesOf first)).token t, List.mem_map_of_mem ht, by simpa using hend⟩
    rw [hcarried] at hfollowing
    refine (congrArg _ hfollowing).trans ?_
    cases parse ts <;> rfl

/-- A source with code and another one behind it, on lines of their own, have the code of both, or
only that of the one where the other has no statements. Where the second one has an error, both
together have the same error, which is as many lines further down as the first one takes. -/
theorem compile_joined {first code : String} (h : compile first = .ok code) (second : String) :
    (∀ code', compile second = .ok code' →
      ∃ program program', programOf first = .ok program ∧ programOf second = .ok program' ∧
        compile (first ++ "\n" ++ second) = .ok
          (if program = [] then code' else if program' = [] then code
            else code ++ "\n" ++ code')) ∧
    ∀ e, compile second = .error e →
      compile (first ++ "\n" ++ second) = .error (e.later (linesOf first)) := by
  rw [compile_eq_map] at h
  cases hfirst : programOf first with
  | error e =>
    rw [hfirst] at h
    cases h
  | ok program =>
    rw [hfirst] at h
    obtain rfl := Except.ok.inj h
    have hjoined := programOf_joined hfirst second
    simp only [compile_eq_map, hjoined]
    cases hsecond : programOf second with
    | error e =>
      constructor
      · intro code' h'
        cases h'
      · intro e' h'
        obtain rfl := Except.error.inj h'
        rfl
    | ok program' =>
      constructor
      · intro code' h'
        obtain rfl := Except.ok.inj h'
        have hcode := JavaScript.program_append program
          (program'.map (Stmt.relabel (.later (linesOf first))))
        simp only [List.map_eq_nil_iff, JavaScript.program_relabel] at hcode
        exact ⟨program, program', rfl, rfl, congrArg Except.ok hcode⟩
      · intro e' h'
        cases h'

/-- Two assignments have the code of both, and behind an assignment an open string is found on the
second line. -/
theorem compile_joined_assignment :
    compile "x = y;" = .ok "x = y;" ∧
      (∃ program program', programOf "x = y;" = .ok program ∧ programOf "x = y;" = .ok program' ∧
        compile ("x = y;" ++ "\n" ++ "x = y;") = .ok
          (if program = [] then "x = y;" else if program' = [] then "x = y;"
            else "x = y;" ++ "\n" ++ "x = y;")) ∧
      compile ("x = y;" ++ "\n" ++ "\"") = .error (.lexical ⟨.unterminatedString, 2⟩) := by
  have hopen : compile "\"" = .error (.lexical ⟨.unterminatedString, 1⟩) := by
    have hlex : tokenize "\"" = .error ⟨.unterminatedString, 1⟩ := by decide +kernel
    rw [compile_eq_map, programOf_of_lexical hlex]
    rfl
  exact ⟨compile_assignment, (compile_joined compile_assignment _).1 _ compile_assignment,
    (compile_joined compile_assignment _).2 _ hopen⟩

end Moonbridge
