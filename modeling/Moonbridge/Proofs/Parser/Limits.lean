import Moonbridge.Proofs.Parser.Correctness
import Moonbridge.Proofs.Parser.Overrun

/-!
# The limits of the parser

A program of the documented grammar that nests too deeply, has too many levels or too long a list
is not read, and the error it gives is about a limit: the declarations in front of the first one
beyond a limit are read without errors, and that one records errors about limits only. Hence a
program that is read stays within all limits.
-/

namespace Moonbridge

namespace Grammar

/-- A declaration beyond one of the limits of the parser. -/
def Phrase.Exceeds (d : Phrase .declaration) : Prop :=
  Parser.maxNesting < d.nesting ∨ Parser.maxHeight < d.tree.outline.height ∨
    Parser.maxListed < d.longestList

end Grammar

/-- An error whose text is about a limit. -/
def ParseError.BlamesLimit (e : ParseError) : Prop :=
  (∃ what, e.reason = what ++ " nested too deeply") ∨
    e.reason = "can't have more than 255 arguments" ∨
    e.reason = "can't have more than 255 parameters"

namespace Parser

open Grammar

/-- The wording of a problem with a limit. -/
theorem blamesLimit {e : ParseError} (h : e.problem.IsLimit) : e.BlamesLimit := by
  obtain ⟨problem, token⟩ := e
  cases problem with
  | tooDeep what => exact Or.inl ⟨what, rfl⟩
  | tooMany what =>
    rcases h with rfl | rfl
    · exact Or.inr (Or.inl rfl)
    · exact Or.inr (Or.inr rfl)
  | expected what => exact h.elim
  | invalidTarget => exact h.elim
  | other text => exact h.elim

section Attempts

variable {s s' : State} {d : Phrase .declaration} {g : Segment} {rest : List Token}

/-- The error of a height is about a limit. -/
theorem limits_heightErrors (stmt : Stmt) (near : Token) : Limits (heightErrors stmt near) := by
  intro e he
  unfold heightErrors at he
  split at he
  · obtain rfl := List.mem_singleton.mp he
    trivial
  · cases he

/-- A declaration within all limits is accepted. -/
theorem accepted_of_not_exceeds (hdoc : d.Documented) (hclear : d.Clear) (h : ¬ d.Exceeds) :
    Accepted d := by
  obtain ⟨hnesting, hheight, hlisted⟩ : ¬ maxNesting < (d.nesting : Int) ∧
      ¬ maxHeight < d.tree.outline.height ∧ ¬ maxListed < d.longestList := by
    simpa only [Phrase.Exceeds, not_or] using h
  exact ⟨hdoc, hclear, by omega, by omega, by omega⟩

/-- An attempt at a declaration that nests too deeply fails at the limit of nesting. -/
theorem Attempt.of_deep (h : Attempt s g s') (hs : s.depth = 0)
    (hafter : s.after = d.tokens ++ rest) (hrest : Leads Anything rest) (hdoc : d.Documented)
    (hclear : d.Clear) (hdeep : maxNesting < d.nesting) : Limits g.errors ∧ g.errors ≠ [] := by
  have hroom := room_of_depth hs
  obtain ⟨what, t, s₁, es, hrun, herrors, hes⟩ :=
    overrunsPhrase d s.room (by omega) hclear hdoc s rest hroom hafter hrest
  cases h with
  | parsed run passes isLast => cases run.symm.trans hrun
  | @failed error s₁ ts skipped rest es' run moved cursor split inner skips recovers =>
    cases run.symm.trans hrun
    obtain rfl : es' = es := by
      simpa [← Array.toList_inj] using moved.errors.symm.trans herrors
    refine ⟨limits_append.mpr ⟨hes, ?_⟩, by simp⟩
    intro e he
    obtain rfl := List.mem_singleton.mp he
    trivial

/-- An attempt at a declaration with room for its levels records its errors and that of its
height. -/
theorem Attempt.of_shallow (h : Attempt s g s') (hs : s.depth = 0)
    (hafter : s.after = d.tokens ++ rest) (hrest : Leads Anything rest) (hclear : d.Clear)
    (hshallow : (d.nesting : Int) ≤ maxNesting) :
    ∃ last, g.errors = d.errors ++ heightErrors d.tree last := by
  have hroom := room_of_depth hs
  have hrun := readsPhrase d s.room (by omega) hclear s rest hroom hafter hrest
  have hpass : Passes s (s.pass d.tokens d.errors) d.tokens d.errors :=
    ⟨by rw [State.pass_after_of_append hafter, hafter], rfl⟩
  cases h with
  | parsed run passes isLast =>
    cases run.symm.trans hrun
    obtain ⟨rfl, rfl⟩ := passes.unique hpass
    exact ⟨_, rfl⟩
  | failed run moved cursor split inner skips recovers => cases run.symm.trans hrun

/-- An attempt at a declaration beyond a limit records errors, all of them about limits. -/
theorem Attempt.of_exceeds (h : Attempt s g s') (hs : s.depth = 0)
    (hafter : s.after = d.tokens ++ rest) (hrest : Leads Anything rest) (hdoc : d.Documented)
    (hclear : d.Clear) (hexceeds : d.Exceeds) : Limits g.errors ∧ g.errors ≠ [] := by
  by_cases hdeep : maxNesting < d.nesting
  · exact h.of_deep hs hafter hrest hdoc hclear hdeep
  · obtain ⟨last, herrors⟩ := h.of_shallow hs hafter hrest hclear (by omega)
    rw [herrors]
    refine ⟨limits_append.mpr ⟨d.limits_errors hdoc, limits_heightErrors _ _⟩, ?_⟩
    intro hnil
    obtain ⟨hfaultless, hlow⟩ := List.append_eq_nil_iff.mp hnil
    have hlisted := (d.errors_eq_nil_iff.mp hfaultless).2
    have hheight := (heightErrors_eq_nil_iff _ _).mp hlow
    rcases hexceeds with hexceeds | hexceeds | hexceeds <;> omega

end Attempts

/-- A run over declarations of which one is beyond a limit has a first error, about a limit. -/
theorem exists_runs_of_exceeds {ds : List (Phrase .declaration)}
    (h : ∀ d ∈ ds, d.Documented ∧ d.Clear) (hexceeds : ∃ d ∈ ds, d.Exceeds) {mark : Token}
    (hmark : mark.isEnd = true) (beyond : List Token) {s : State} (hs : s.depth = 0)
    (hafter : s.after = ds.flatMap Phrase.tokens ++ mark :: beyond) :
    ∃ gs s' error errors, Runs s gs s' ∧ gs.flatMap (·.errors) = error :: errors ∧
      error.problem.IsLimit := by
  induction ds generalizing s with
  | nil => simp at hexceeds
  | cons d ds ih =>
    simp only [List.mem_cons, forall_eq_or_imp] at h
    obtain ⟨⟨hdoc, hclear⟩, hothers⟩ := h
    rw [List.flatMap_cons, List.append_assoc] at hafter
    have hend : s.HasEnd := ⟨mark, by simp [hafter], hmark⟩
    have hrest := leads_append_cons (ds.flatMap Phrase.tokens) mark beyond
    obtain ⟨t, more, hcons, ht⟩ := cons_of_declaration hafter
    by_cases hd : d.Exceeds
    · -- This declaration records the first error, whatever follows.
      obtain ⟨g, s₁, hfirst⟩ := exists_attempt hend
      obtain ⟨hlimits, hne⟩ := hfirst.of_exceeds hs hafter hrest hdoc hclear hd
      obtain ⟨error, errors, herrors⟩ := List.exists_cons_of_ne_nil hne
      obtain ⟨gs, s', hruns⟩ := exists_runs s₁ (hfirst.hasEnd hend)
      refine ⟨g :: gs, s', error, errors ++ gs.flatMap (·.errors), .step hcons ht hfirst hruns,
        by simp [herrors], ?_⟩
      exact hlimits error (by simp [herrors])
    · have hexceeds' : ∃ d ∈ ds, d.Exceeds := by simpa [hd] using hexceeds
      have hfirst := attempt_of_accepted (accepted_of_not_exceeds hdoc hclear hd) hs hafter hrest
      obtain ⟨gs, s', error, errors, hruns, herrors, hlimit⟩ := ih hothers hexceeds'
        (s := s.pass d.tokens []) hs (State.pass_after_of_append hafter [])
      exact ⟨segmentOf d :: gs, s', error, errors, .step hcons ht hfirst hruns,
        by simpa [segmentOf] using herrors, hlimit⟩

/-- A program beyond a limit is not read, and its error is about a limit. -/
theorem parse_of_exceeds {ds : List (Phrase .declaration)}
    (h : ∀ d ∈ ds, d.Documented ∧ d.Clear) (hexceeds : ∃ d ∈ ds, d.Exceeds) {mark : Token}
    (hmark : mark.isEnd = true) (beyond : List Token) :
    ∃ error, parse (ds.flatMap Phrase.tokens ++ mark :: beyond) = .error (.rejected error) ∧
      error.BlamesLimit := by
  obtain ⟨gs, s', error, errors, hruns, herrors, hlimit⟩ := exists_runs_of_exceeds h hexceeds hmark
    beyond (s := .start (ds.flatMap Phrase.tokens ++ mark :: beyond)) rfl rfl
  refine ⟨error, ?_, blamesLimit hlimit⟩
  rw [parse_of_runs hruns, herrors]

/-- A program that is read has no statement beyond a limit. -/
theorem within_of_parse {tokens : List Token} {program : Program}
    (h : parse tokens = .ok program) {stmt : Stmt} (hstmt : stmt ∈ program) :
    stmt.outline.height ≤ maxHeight ∧ stmt.longestList ≤ maxListed := by
  obtain ⟨gs, s', hruns, herrors, rfl⟩ := runs_of_parse h
  obtain ⟨ds, -, hstmts, hds⟩ := accepted_of_runs hruns rfl herrors
  rw [hstmts] at hstmt
  obtain ⟨d, hd, rfl⟩ := List.mem_map.mp hstmt
  exact ⟨(hds d hd).height, Nat.le_trans d.longestList_tree_le (hds d hd).listed⟩

/-- The limits are enforced. Tokens of the documented grammar that are beyond one of them are not
read, and the first error is about a limit; what is read is within all of them, however its tokens
are derived. -/
theorem limits_enforced :
    (∀ (ds : List (Phrase .declaration)) (mark : Token) (beyond : List Token),
      (∀ d ∈ ds, d.Documented ∧ d.Clear) → mark.isEnd = true → (∃ d ∈ ds, d.Exceeds) →
        ∃ error, parse (ds.flatMap Phrase.tokens ++ mark :: beyond) = .error (.rejected error) ∧
          error.BlamesLimit) ∧
    ∀ (tokens : List Token) (program : Program), parse tokens = .ok program →
      (∀ stmt ∈ program, stmt.outline.height ≤ maxHeight ∧ stmt.longestList ≤ maxListed) ∧
      ∀ (ds : List (Phrase .declaration)) (mark : Token) (beyond : List Token),
        tokens = ds.flatMap Phrase.tokens ++ mark :: beyond → mark.isEnd = true →
          (∀ d ∈ ds, d.Documented ∧ d.Clear) → ∀ d ∈ ds, ¬ d.Exceeds := by
  refine ⟨fun ds mark beyond h hmark hexceeds => parse_of_exceeds h hexceeds hmark beyond, ?_⟩
  intro tokens program hparse
  refine ⟨fun stmt => within_of_parse hparse, ?_⟩
  rintro ds mark beyond rfl hmark h d hd hexceeds
  obtain ⟨error, herror, -⟩ := parse_of_exceeds h ⟨d, hd, hexceeds⟩ hmark beyond
  cases hparse.symm.trans herror

section Sample

variable (minus : Of .minus) (name : Of .identifier) (semicolon : Of .semicolon)

/-- A name behind a number of minus signs. -/
def negatedName : Nat → Phrase (.tier 0)
  | 0 => .unsigned (.single (.name name))
  | n + 1 => .negated minus (negatedName n)

/-- Each minus sign opens one more production. -/
theorem nesting_negatedName (n : Nat) : (negatedName minus name n).nesting = n := by
  induction n with
  | zero => rfl
  | succ n ih => rw [negatedName, Phrase.nesting, ih]

/-- A name behind minus signs is documented, and nothing in it can be read otherwise. -/
theorem negatedName_clear (n : Nat) :
    (negatedName minus name n).Clear ∧ (negatedName minus name n).Documented := by
  induction n with
  | zero => exact ⟨trivial, trivial⟩
  | succ n ih => exact ih

/-- A name behind a number of minus signs, as a statement. -/
def negatedStatement (n : Nat) : Phrase .declaration :=
  .stated (.expressed (.value (.operand (.operand (.operand (.operand (.operand (.operand
    (negatedName minus name n)))))))) semicolon)

/-- A name behind minus signs is documented as a statement too, and clear. -/
theorem negatedStatement_clear (n : Nat) :
    (negatedStatement minus name semicolon n).Documented ∧
      (negatedStatement minus name semicolon n).Clear := by
  refine ⟨(negatedName_clear minus name n).2, ?_, (negatedName_clear minus name n).1⟩
  rintro ⟨brace, rest, htokens, hk⟩
  cases n with
  | zero =>
    obtain ⟨rfl, -⟩ := List.cons.inj htokens
    simp [name.2] at hk
  | succ n =>
    obtain ⟨rfl, -⟩ := List.cons.inj htokens
    simp [minus.2] at hk

/-- The statement, the expression and each minus sign open one level. -/
theorem negatedStatement_exceeds {n : Nat} (hn : 48 < n) :
    (negatedStatement minus name semicolon n).Exceeds := by
  have hnesting : (negatedStatement minus name semicolon n).nesting = n + 2 := by
    simp only [negatedStatement, Phrase.nesting, nesting_negatedName]
  left
  rw [hnesting, maxNesting]
  omega

end Sample

/-- Forty-nine minus signs in a statement are beyond a limit, an assignment is not. -/
theorem limits_enforced_minuses :
    (∃ error, parse (List.replicate 49 ⟨.minus, "-", .nil, 1⟩ ++
        [⟨.identifier, "x", .nil, 1⟩, ⟨.semicolon, ";", .nil, 1⟩, ⟨.endOfInput, "", .nil, 1⟩]) =
          .error (.rejected error) ∧ error.BlamesLimit) ∧
      sampleTree.outline.height ≤ maxHeight ∧ sampleTree.longestList ≤ maxListed := by
  constructor
  · refine limits_enforced.1 [negatedStatement ⟨⟨.minus, "-", .nil, 1⟩, rfl⟩
      ⟨⟨.identifier, "x", .nil, 1⟩, rfl⟩ ⟨⟨.semicolon, ";", .nil, 1⟩, rfl⟩ 49]
      ⟨.endOfInput, "", .nil, 1⟩ [] ?_ rfl ?_
    · intro d hd
      obtain rfl := List.mem_singleton.mp hd
      exact negatedStatement_clear _ _ _ 49
    · exact ⟨_, List.mem_singleton.mpr rfl, negatedStatement_exceeds _ _ _ (by decide)⟩
  · exact (limits_enforced.2 sampleTokens [sampleTree] parse_sample).1 sampleTree
      (List.mem_singleton.mpr rfl)

end Parser

end Moonbridge
