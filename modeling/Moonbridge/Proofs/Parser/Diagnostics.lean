import Mathlib.Data.List.Forall2
import Moonbridge.Proofs.Parser.Limits
import Moonbridge.Proofs.Parser.Recovery

/-!
# Errors after which reading goes on

A wrong target of an assignment, a list that is too long and a tree that is too tall are recorded
without giving the declaration up. So tokens of the wider grammar, in which any disjunction may
stand left of an equals sign, are read to their end if there is room for their levels, and the
errors recorded on the way are exactly those of their derivation, followed for each declaration by
that of its height. The program is returned if there are none.
-/

namespace Moonbridge

/-- The errors after which reading goes on. -/
inductive ParseError.Recoverable : ParseError → Prop
  | target {e : ParseError} (problem : e.problem = .invalidTarget)
      (text : e.reason = "invalid assignment target") : Recoverable e
  | surplus {e : ParseError} {what : String} (listed : what ∈ ["arguments", "parameters"])
      (problem : e.problem = .tooMany what)
      (text : e.reason = "can't have more than 255 " ++ what) : Recoverable e
  | height {e : ParseError} (problem : e.problem = .tooDeep "expression")
      (text : e.reason = "expression nested too deeply") : Recoverable e

namespace Grammar.Phrase

/-- After an item too many the list goes on. -/
theorem recoverable_surplus {what : String} (hwhat : what ∈ ["arguments", "parameters"])
    {count : Nat} {item : List Token} : ∀ e ∈ surplus what count item, e.Recoverable := by
  intro e he
  unfold surplus at he
  split at he
  · obtain ⟨t, -, rfl⟩ := List.mem_map.mp he
    exact .surplus hwhat rfl rfl
  · cases he

/-- After a target that cannot be assigned to the assignment goes on. -/
theorem recoverable_mistarget {target : Expr} {equals : Token} :
    ∀ e ∈ mistarget target equals, e.Recoverable := by
  intro e he
  unfold mistarget at he
  split at he
  · cases he
  · obtain rfl := List.mem_singleton.mp he
    exact .target rfl rfl

/-- A derivation has no other errors than those after which reading goes on. -/
theorem recoverable_errors {c : Category} (d : Phrase c) : ∀ e ∈ d.errors, e.Recoverable := by
  induction d with
  | moreArguments args comma value iha ihv =>
    simp only [errors, List.forall_mem_append]
    exact ⟨⟨iha, recoverable_surplus (by simp)⟩, ihv⟩
  | moreParameters params comma name ih =>
    simp only [errors, List.forall_mem_append]
    exact ⟨ih, recoverable_surplus (by simp)⟩
  | assigned target equals value iht ihv =>
    simp only [errors, List.forall_mem_append]
    exact ⟨⟨iht, ihv⟩, recoverable_mistarget⟩
  | _ =>
    simp only [errors, List.forall_mem_append] at *
    grind

end Grammar.Phrase

namespace Parser

open Grammar

/-- The errors that a declaration gives rise to when it is read to its end: those of its derivation
and at last, if the tree that is kept has too many levels, one more at one of its tokens. -/
inductive Diagnosed (d : Phrase .declaration) : List ParseError → Prop
  | low (within : d.tree.outline.height ≤ maxHeight) : Diagnosed d d.errors
  | tall {t : Token} (beyond : maxHeight < d.tree.outline.height) (mem : t ∈ d.tokens) :
      Diagnosed d (d.errors ++ [⟨.tooDeep "expression", t⟩])

/-- A round of the loop over the top level that reads a declaration to its end. -/
structure ReadThrough (d : Phrase .declaration) (g : Segment) : Prop where
  tokens : g.tokens = d.tokens
  stmt : g.stmt = some d.tree
  errors : Diagnosed d g.errors

/-- The error of a height is recorded last, and only if the tree is too tall. -/
theorem diagnosed_heightErrors {d : Phrase .declaration} {last : Token} (hlast : last ∈ d.tokens) :
    Diagnosed d (d.errors ++ heightErrors d.tree last) := by
  have hnil := heightErrors_eq_nil_iff d.tree last
  cases hsearch : Outline.firstBeyond maxHeight [⟨d.tree.outline, 1, last⟩] with
  | none =>
    have hlow : heightErrors d.tree last = [] := by simp only [heightErrors, hsearch]
    rw [hlow, List.append_nil]
    exact .low (hnil.mp hlow)
  | some t =>
    have htall : heightErrors d.tree last = [⟨.tooDeep "expression", t⟩] := by
      simp only [heightErrors, hsearch]
    have hbeyond : ¬ d.tree.outline.height ≤ maxHeight := by
      rw [← hnil, htall]
      exact List.cons_ne_nil _ _
    have ht : t ∈ d.tokens := heightErrors_located hlast (htall ▸ List.mem_cons_self)
    rw [htall]
    exact .tall (Nat.lt_of_not_le hbeyond) ht

/-- All errors of a declaration that is read are ones after which it goes on. -/
theorem Diagnosed.recoverable {d : Phrase .declaration} {es : List ParseError}
    (h : Diagnosed d es) : ∀ e ∈ es, e.Recoverable := by
  cases h with
  | low within => exact d.recoverable_errors
  | tall beyond mem =>
    refine List.forall_mem_append.mpr ⟨d.recoverable_errors, ?_⟩
    rintro e he
    obtain rfl := List.mem_singleton.mp he
    exact .height rfl rfl

/-- A declaration that is not too tall has the errors of its derivation. -/
theorem Diagnosed.eq_of_low {d : Phrase .declaration} {es : List ParseError} (h : Diagnosed d es)
    (hlow : d.tree.outline.height ≤ maxHeight) : es = d.errors := by
  cases h with
  | low within => rfl
  | tall beyond mem => omega

/-- Declarations with room for their levels are read to their ends, one in each round. -/
theorem exists_runs_of_clear {ds : List (Phrase .declaration)}
    (h : ∀ d ∈ ds, d.Clear ∧ (d.nesting : Int) ≤ maxNesting) {mark : Token}
    (hmark : mark.isEnd = true) (beyond : List Token) {s : State} (hs : s.depth = 0)
    (hafter : s.after = ds.flatMap Phrase.tokens ++ mark :: beyond) :
    ∃ gs s', Runs s gs s' ∧ List.Forall₂ ReadThrough ds gs := by
  induction ds generalizing s with
  | nil => exact ⟨[], s, .ended hafter hmark, .nil⟩
  | cons d ds ih =>
    simp only [List.mem_cons, forall_eq_or_imp] at h
    obtain ⟨⟨hclear, hnested⟩, hothers⟩ := h
    rw [List.flatMap_cons, List.append_assoc] at hafter
    have hrest := leads_append_cons (ds.flatMap Phrase.tokens) mark beyond
    obtain ⟨last, hlast, hfirst⟩ := attempt_of_clear hclear hnested hs hafter hrest
    obtain ⟨t, more, hcons, ht⟩ := cons_of_declaration hafter
    obtain ⟨gs, s', hruns, hgs⟩ := ih hothers
      (s := s.pass d.tokens (d.errors ++ heightErrors d.tree last)) hs
      (State.pass_after_of_append hafter _)
    exact ⟨_, s', .step hcons ht hfirst hruns,
      .cons ⟨rfl, rfl, diagnosed_heightErrors hlast⟩ hgs⟩

/-- The rounds that read declarations answer their trees. -/
theorem stmts_of_readThrough {ds : List (Phrase .declaration)} {gs : List Segment}
    (h : List.Forall₂ ReadThrough ds gs) : gs.filterMap (·.stmt) = ds.map Phrase.tree := by
  induction h with
  | nil => rfl
  | cons hd _ ih => rw [List.filterMap_cons, hd.stmt, ih, List.map_cons]

/-- All errors of declarations that are read are ones after which they go on. -/
theorem recoverable_of_readThrough {ds : List (Phrase .declaration)} {gs : List Segment}
    (h : List.Forall₂ ReadThrough ds gs) : ∀ e ∈ gs.flatMap (·.errors), e.Recoverable := by
  induction h with
  | nil => simp
  | cons hd _ ih =>
    rw [List.flatMap_cons, List.forall_mem_append]
    exact ⟨hd.errors.recoverable, ih⟩

/-- What the parser says of declarations that it reads to their ends. -/
structure ReadsThrough (tokens : List Token) (ds : List (Phrase .declaration)) : Prop where
  /-- Each declaration takes one round of the loop, which reads it without failing, and the errors
  recorded are those of the declarations in order. -/
  rounds : ∃ gs s', Runs (.start tokens) gs s' ∧ List.Forall₂ ReadThrough ds gs ∧
    declarations.run (.start tokens) = .ok (ds.map Phrase.tree) s' ∧
    diagnose tokens = gs.flatMap (·.errors)
  recoverable : ∀ e ∈ diagnose tokens, e.Recoverable
  /-- The program is returned if nothing is recorded, and only then. -/
  returned : ∀ program, parse tokens = .ok program ↔
    diagnose tokens = [] ∧ program = ds.map Phrase.tree
  raised : ∀ e, parse tokens = .error (.rejected e) ↔ (diagnose tokens).head? = some e

/-- Tokens of the wider grammar with room for their levels are read without giving a declaration
up. What is recorded are the errors of their derivations, and no others. -/
theorem diagnostics_exact {ds : List (Phrase .declaration)} {mark : Token}
    (h : ∀ d ∈ ds, d.Clear ∧ (d.nesting : Int) ≤ maxNesting) (hmark : mark.isEnd = true)
    (beyond : List Token) : ReadsThrough (ds.flatMap Phrase.tokens ++ mark :: beyond) ds := by
  obtain ⟨gs, s', hruns, hgs⟩ := exists_runs_of_clear h hmark beyond
    (s := .start (ds.flatMap Phrase.tokens ++ mark :: beyond)) rfl rfl
  have hstmts := stmts_of_readThrough hgs
  have hdiagnose := diagnose_of_runs hruns
  have hparse := parse_of_runs hruns
  rw [hstmts] at hparse
  constructor
  · refine ⟨gs, s', hruns, hgs, ?_, hdiagnose⟩
    rw [declarations_eq, hruns.run_eq, hstmts]
    rfl
  · rw [hdiagnose]
    exact recoverable_of_readThrough hgs
  · intro program
    rw [hparse, hdiagnose]
    cases gs.flatMap (·.errors) <;> simp [eq_comm]
  · intro e
    rw [hparse, hdiagnose]
    cases gs.flatMap (·.errors) <;> simp

section Sample

/-- A call of a name with the given arguments, as an operand of any operator. -/
def calledName (name : Of .identifier) (opened : Of .leftParen) (args : Phrase .arguments)
    (closed : Of .rightParen) : Phrase (.tier 6) :=
  .operand (.operand (.operand (.operand (.operand (.operand (.unsigned
    (.calledWith (.single (.name name)) opened args closed)))))))

/-- A name, an equals sign and a parenthesis of the sample, on a given line. -/
def sampleName (lexeme : String) (line : Int) : Of .identifier :=
  ⟨⟨.identifier, lexeme, .nil, line⟩, rfl⟩

/-- An equals sign of the sample. -/
def sampleEquals (line : Int) : Of .assign := ⟨⟨.assign, "=", .nil, line⟩, rfl⟩

/-- An opening parenthesis of the sample. -/
def sampleOpened (line : Int) : Of .leftParen := ⟨⟨.leftParen, "(", .nil, line⟩, rfl⟩

/-- A closing parenthesis of the sample. -/
def sampleClosed (line : Int) : Of .rightParen := ⟨⟨.rightParen, ")", .nil, line⟩, rfl⟩

/-- The derivation of `f(g(x) = y) = z;`, in which the inner assignment stands on line 2. -/
def mistargeted : Phrase .declaration :=
  .stated (.expressed (.assigned
    (calledName (sampleName "f" 1) (sampleOpened 1)
      (.argument (.assigned
        (calledName (sampleName "g" 2) (sampleOpened 2) (.argument (.value (.bareName
          (sampleName "x" 2)))) (sampleClosed 2))
        (sampleEquals 2) (.value (.bareName (sampleName "y" 2)))))
      (sampleClosed 3))
    (sampleEquals 3) (.value (.bareName (sampleName "z" 3)))) ⟨⟨.semicolon, ";", .nil, 3⟩, rfl⟩)

private theorem mistargeted_clear :
    ∀ d ∈ [mistargeted], d.Clear ∧ (d.nesting : Int) ≤ maxNesting := by
  intro d hd
  obtain rfl := List.mem_singleton.mp hd
  have hfour : mistargeted.nesting = 4 := rfl
  refine ⟨?_, by rw [hfour]; decide⟩
  simp [mistargeted, calledName, sampleName, Phrase.bareName, Phrase.Clear, Phrase.StartsAsBlock,
    Phrase.tokens]

end Sample

/-- Of two nested assignments to calls, the inner one is reported first, and the program is not
returned. -/
theorem diagnostics_exact_mistargeted :
    ReadsThrough (mistargeted.tokens ++ [⟨.endOfInput, "", .nil, 3⟩]) [mistargeted] ∧
      diagnose (mistargeted.tokens ++ [⟨.endOfInput, "", .nil, 3⟩]) =
        [⟨.invalidTarget, (sampleEquals 2).1⟩, ⟨.invalidTarget, (sampleEquals 3).1⟩] ∧
      parse (mistargeted.tokens ++ [⟨.endOfInput, "", .nil, 3⟩]) =
        .error (.rejected ⟨.invalidTarget, (sampleEquals 2).1⟩) := by
  have hmark : Token.isEnd ⟨.endOfInput, "", .nil, 3⟩ = true := rfl
  have hreads := diagnostics_exact mistargeted_clear hmark []
  rw [List.flatMap_singleton] at hreads
  have herrors : diagnose (mistargeted.tokens ++ [⟨.endOfInput, "", .nil, 3⟩]) =
      [⟨.invalidTarget, (sampleEquals 2).1⟩, ⟨.invalidTarget, (sampleEquals 3).1⟩] := by
    obtain ⟨gs, s', -, hgs, -, hdiagnose⟩ := hreads.rounds
    obtain ⟨g, others, hg, hnil, rfl⟩ := List.forall₂_cons_left_iff.mp hgs
    obtain rfl := List.forall₂_nil_left_iff.mp hnil
    rw [hdiagnose, List.flatMap_singleton, hg.errors.eq_of_low (by decide)]
    rfl
  exact ⟨hreads, herrors, (hreads.raised _).mpr (by rw [herrors]; rfl)⟩

end Parser

end Moonbridge
