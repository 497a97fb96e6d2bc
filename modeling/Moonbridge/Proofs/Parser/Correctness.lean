import Moonbridge.Proofs.Grammar.Faultless
import Moonbridge.Proofs.Parser.Completeness
import Moonbridge.Proofs.Parser.Program

/-!
# The parser and the grammar

A program is read exactly when its tokens up to the mark of the end are a sequence of
declarations of the documented grammar within the limits of the parser, and what is read are
their trees. Two such sequences with the same tokens have the same trees; for that the limits
do not matter, because the parser can be given more room than it takes for itself.
-/

namespace Moonbridge.Parser

open Grammar

/-- A declaration of the documented grammar that the parser accepts: it is clear how to read it,
and it stays within the limits. -/
structure Accepted (d : Phrase .declaration) : Prop where
  documented : d.Documented
  clear : d.Clear
  listed : d.longestList ≤ maxListed
  nested : (d.nesting : Int) ≤ maxNesting
  height : d.tree.outline.height ≤ maxHeight

/-- Without open productions there is room for as many as may be open at once. -/
theorem room_of_depth {s : State} (h : s.depth = 0) : s.depth + (s.room : Nat) = maxNesting := by
  simp only [State.room, h]
  decide

/-- A declaration has no error of its height exactly when it is not too tall. -/
theorem heightErrors_eq_nil_iff (stmt : Stmt) (near : Token) :
    heightErrors stmt near = [] ↔ stmt.outline.height ≤ maxHeight := by
  have hsearch := Outline.firstBeyond_eq_none_iff maxHeight [⟨stmt.outline, 1, near⟩]
  simp only [List.mem_singleton, forall_eq] at hsearch
  have harith : 1 + stmt.outline.height ≤ maxHeight + 1 ↔ stmt.outline.height ≤ maxHeight := by
    omega
  unfold heightErrors
  rw [← harith, ← hsearch]
  cases Outline.firstBeyond maxHeight [⟨stmt.outline, 1, near⟩] <;> simp

section Soundness

variable {s s' : State}

/-- A segment without errors is a declaration. -/
theorem accepted_of_attempt {g : Segment} (h : Attempt s g s') (hs : s.depth = 0)
    (herrors : g.errors = []) :
    ∃ d : Phrase .declaration, g.tokens = d.tokens ∧ g.stmt = some d.tree ∧ Accepted d := by
  cases h with
  | parsed run passes isLast =>
    obtain ⟨d, rfl, hn, hc, hd⟩ := declaration_sound s.room s _ _ run
    obtain ⟨rfl, rfl⟩ := passes.unique hd
    obtain ⟨hfault, hheight⟩ := List.append_eq_nil_iff.mp herrors
    obtain ⟨hdoc, hlist⟩ := d.errors_eq_nil_iff.mp hfault
    have hroom := room_of_depth hs
    exact ⟨d, rfl, rfl, hdoc, hc, hlist, by omega, (heightErrors_eq_nil_iff _ _).mp hheight⟩
  | failed run moved cursor split inner skips recovers => simp at herrors

/-- A run without errors reads a sequence of declarations. -/
theorem accepted_of_runs {gs : List Segment} (h : Runs s gs s') (hs : s.depth = 0)
    (herrors : gs.flatMap (·.errors) = []) :
    ∃ ds : List (Phrase .declaration), gs.flatMap (·.tokens) = ds.flatMap Phrase.tokens ∧
      gs.filterMap (·.stmt) = ds.map Phrase.tree ∧ ∀ d ∈ ds, Accepted d := by
  induction h with
  | ended => exact ⟨[], rfl, rfl, by simp⟩
  | step _ _ first others ih =>
    rw [List.flatMap_cons, List.append_eq_nil_iff] at herrors
    obtain ⟨d, htokens, hstmt, hd⟩ := accepted_of_attempt first hs herrors.1
    obtain ⟨ds, hts, hstmts, hds⟩ := ih (first.depth hs) herrors.2
    refine ⟨d :: ds, ?_, ?_, ?_⟩
    · rw [List.flatMap_cons, List.flatMap_cons, htokens, hts]
    · rw [List.filterMap_cons, hstmt, hstmts]
      rfl
    · simp only [List.mem_cons, forall_eq_or_imp]
      exact ⟨hd, hds⟩

/-- A run never passes the mark of the end. -/
theorem inner_of_runs {gs : List Segment} (h : Runs s gs s') :
    ∀ t ∈ gs.flatMap (·.tokens), t.isEnd = false := by
  induction h with
  | ended => simp
  | step _ _ first others ih =>
    intro t ht
    rw [List.flatMap_cons, List.mem_append] at ht
    rcases ht with ht | ht
    · exact first.inner t ht
    · exact ih t ht

/-- A program is only read from a token list with a mark of the end. -/
theorem hasEnd_of_parse {tokens : List Token} {program : Program}
    (h : parse tokens = .ok program) : (State.start tokens).HasEnd := by
  unfold parse at h
  cases hrun : Parser.program.run (.start tokens) with
  | error e s' => rw [hrun] at h; cases h
  | ok p s' =>
    obtain ⟨stmts, s₁, hstmts, -⟩ := bind_eq_ok.mp hrun
    exact hasEnd_of_declarations hstmts

/-- A program that is read comes from a run without errors. -/
theorem runs_of_parse {tokens : List Token} {program : Program} (h : parse tokens = .ok program) :
    ∃ gs s', Runs (.start tokens) gs s' ∧ gs.flatMap (·.errors) = [] ∧
      program = gs.filterMap (·.stmt) := by
  obtain ⟨gs, s', hruns⟩ := exists_runs (.start tokens) (hasEnd_of_parse h)
  rw [parse_of_runs hruns] at h
  cases herrors : gs.flatMap (·.errors) with
  | cons e es => rw [herrors] at h; cases h
  | nil =>
    rw [herrors] at h
    exact ⟨gs, s', hruns, herrors, (Except.ok.inj h).symm⟩

end Soundness

section Completeness

/-- The segment of a declaration that is read without errors. -/
def segmentOf (d : Phrase .declaration) : Segment := ⟨d.tokens, [], some d.tree⟩

/-- Segments of declarations that are read record no errors. -/
theorem errors_segmentOf (ds : List (Phrase .declaration)) :
    (ds.map segmentOf).flatMap (·.errors) = [] := by
  simp [List.flatMap_map, segmentOf]

/-- Segments of declarations that are read hold their trees in order. -/
theorem stmts_segmentOf (ds : List (Phrase .declaration)) :
    (ds.map segmentOf).filterMap (·.stmt) = ds.map Phrase.tree := by
  simp [List.filterMap_map, segmentOf, Function.comp_def]

/-- A declaration with room for its levels is read to its end by one round of the loop, which
records its errors and at last that of its height. -/
theorem attempt_of_clear {d : Phrase .declaration} (hclear : d.Clear)
    (hnested : (d.nesting : Int) ≤ maxNesting) {s : State} {rest : List Token} (hs : s.depth = 0)
    (hafter : s.after = d.tokens ++ rest) (hrest : Leads Anything rest) :
    ∃ last ∈ d.tokens, Attempt s ⟨d.tokens, d.errors ++ heightErrors d.tree last, some d.tree⟩
      (s.pass d.tokens (d.errors ++ heightErrors d.tree last)) := by
  have hroom := room_of_depth hs
  have hread := readsPhrase d s.room (by omega) hclear s rest hroom hafter hrest
  obtain ⟨t, more, htokens, -⟩ := d.begins id
  have hne : d.tokens ≠ [] := by simp [htokens]
  have hpass : Passes s (s.pass d.tokens d.errors) d.tokens d.errors :=
    ⟨by rw [State.pass_after_of_append hafter, hafter], rfl⟩
  have hattempt := Attempt.parsed (s := s) hread hpass (List.getLast?_eq_some_getLast hne)
  rw [State.pass_pass, List.append_nil] at hattempt
  exact ⟨_, List.getLast_mem hne, hattempt⟩

/-- A declaration of the grammar is read by one round of the loop. -/
theorem attempt_of_accepted {d : Phrase .declaration} (hd : Accepted d) {s : State}
    {rest : List Token} (hs : s.depth = 0) (hafter : s.after = d.tokens ++ rest)
    (hrest : Leads Anything rest) : Attempt s (segmentOf d) (s.pass d.tokens []) := by
  have herrors : d.errors = [] := d.errors_eq_nil_iff.mpr ⟨hd.documented, hd.listed⟩
  obtain ⟨last, -, hattempt⟩ := attempt_of_clear hd.clear hd.nested hs hafter hrest
  rwa [(heightErrors_eq_nil_iff _ _).mpr hd.height, herrors] at hattempt

/-- A declaration does not begin with the mark of the end. -/
theorem cons_of_declaration {d : Phrase .declaration} {s : State} {rest : List Token}
    (hafter : s.after = d.tokens ++ rest) : ∃ t more, s.after = t :: more ∧ t.isEnd = false := by
  obtain ⟨t, more, htokens, ht⟩ := d.begins id
  have hfirst : ∀ k ∈ Category.declaration.first, k ≠ .endOfInput := by decide
  refine ⟨t, more ++ rest, ?_, by simp [Token.isEnd, hfirst _ ht]⟩
  rw [hafter, htokens]
  rfl

/-- A sequence of declarations is read by as many rounds, and the run goes on behind them. -/
theorem runs_of_accepted {ds : List (Phrase .declaration)} (h : ∀ d ∈ ds, Accepted d)
    {rest : List Token} (hrest : rest ≠ []) {s s' : State} {gs : List Segment} (hs : s.depth = 0)
    (hafter : s.after = ds.flatMap Phrase.tokens ++ rest)
    (hothers : Runs (s.pass (ds.flatMap Phrase.tokens) []) gs s') :
    Runs s (ds.map segmentOf ++ gs) s' := by
  induction ds generalizing s with
  | nil => simpa [State.pass] using hothers
  | cons d ds ih =>
    obtain ⟨next, beyond, rfl⟩ := List.exists_cons_of_ne_nil hrest
    simp only [List.mem_cons, forall_eq_or_imp] at h
    rw [List.flatMap_cons] at hafter hothers
    rw [List.append_assoc] at hafter
    have hfirst := attempt_of_accepted h.1 hs hafter (leads_append_cons _ next beyond)
    have hruns := ih h.2 (s := s.pass d.tokens []) hs (State.pass_after_of_append hafter [])
      (by simpa [State.pass] using hothers)
    obtain ⟨t, more, hcons, hend⟩ := cons_of_declaration hafter
    exact .step hcons hend hfirst hruns

/-- A sequence of declarations of the grammar is read as the sequence of their trees. -/
theorem parse_of_accepted {ds : List (Phrase .declaration)} (h : ∀ d ∈ ds, Accepted d)
    (mark : Token) (hmark : mark.isEnd = true) (beyond : List Token) :
    parse (ds.flatMap Phrase.tokens ++ mark :: beyond) = .ok (ds.map Phrase.tree) ∧
      diagnose (ds.flatMap Phrase.tokens ++ mark :: beyond) = [] := by
  let s : State := .start (ds.flatMap Phrase.tokens ++ mark :: beyond)
  have hruns := runs_of_accepted h (List.cons_ne_nil mark beyond) (s := s) rfl rfl
    (.ended (State.pass_after_of_append rfl []) hmark)
  rw [List.append_nil] at hruns
  constructor
  · rw [parse_of_runs hruns, errors_segmentOf, stmts_segmentOf]
  · rw [diagnose_of_runs hruns, errors_segmentOf]

/-- The first declaration of a token list is determined, however deep it is nested. -/
theorem first_unique {d d' : Phrase .declaration} (hd : d.Clear) (hd' : d'.Clear)
    {rest rest' : List Token} (hrest : Leads Anything rest) (hrest' : Leads Anything rest')
    (h : d.tokens ++ rest = d'.tokens ++ rest') : d.tree = d'.tree ∧ rest = rest' := by
  let n := max d.nesting d'.nesting
  -- The parser starts with so few open productions that there is room for both.
  let s : State := ⟨[], d.tokens ++ rest, maxNesting - n, #[]⟩
  have hroom : s.depth + n = maxNesting := by simp only [s]; omega
  have hrun := readsPhrase d n (Nat.le_max_left _ _) hd s rest hroom rfl hrest
  have hrun' := readsPhrase d' n (Nat.le_max_right _ _) hd' s rest' hroom h hrest'
  have hsame := hrun.symm.trans hrun'
  injection hsame with htree hstate
  refine ⟨htree, ?_⟩
  have hafter := congrArg State.after hstate
  rw [State.pass_after_of_append (s := s) rfl, State.pass_after_of_append h] at hafter
  exact hafter

/-- A sequence of declarations is determined by its tokens. -/
theorem trees_unique {ds ds' : List (Phrase .declaration)} (h : ∀ d ∈ ds, d.Clear)
    (h' : ∀ d ∈ ds', d.Clear) (htokens : ds.flatMap Phrase.tokens = ds'.flatMap Phrase.tokens) :
    ds.map Phrase.tree = ds'.map Phrase.tree := by
  let mark : Token := ⟨.endOfInput, "", .nil, 0⟩
  have hlead : ∀ ts : List Token, Leads Anything (ts ++ [mark]) :=
    fun ts => leads_append_cons ts mark []
  induction ds generalizing ds' with
  | nil =>
    cases ds' with
    | nil => rfl
    | cons d' ds' =>
      obtain ⟨t, more, ht, -⟩ := d'.begins id
      simp [ht] at htokens
  | cons d ds ih =>
    cases ds' with
    | nil =>
      obtain ⟨t, more, ht, -⟩ := d.begins id
      simp [ht] at htokens
    | cons d' ds' =>
      simp only [List.mem_cons, forall_eq_or_imp] at h h'
      have hmarked : d.tokens ++ (ds.flatMap Phrase.tokens ++ [mark]) =
          d'.tokens ++ (ds'.flatMap Phrase.tokens ++ [mark]) := by
        rw [← List.append_assoc, ← List.append_assoc, ← List.flatMap_cons, ← List.flatMap_cons,
          htokens]
      obtain ⟨htree, hrest⟩ := first_unique h.1 h'.1 (hlead _) (hlead _) hmarked
      rw [List.map_cons, List.map_cons, htree, ih h.2 h'.2 (List.append_cancel_right hrest)]

end Completeness

section Sample

/-- The assignment of one name to another. -/
def assignName (target : Of .identifier) (equals : Of .assign) (source : Of .identifier)
    (semicolon : Of .semicolon) : Phrase .declaration :=
  .stated (.expressed (.assigned (.bareName target) equals (.value (.bareName source))) semicolon)

/-- An assignment between two names is accepted, wherever its tokens come from. -/
theorem accepted_assignName (target : Of .identifier) (equals : Of .assign)
    (source : Of .identifier) (semicolon : Of .semicolon) :
    Accepted (assignName target equals source semicolon) where
  documented := ⟨⟨target, rfl⟩, trivial⟩
  clear := by
    refine ⟨?_, trivial, trivial⟩
    rintro ⟨brace, rest, htokens, hk⟩
    obtain ⟨rfl, -⟩ := List.cons.inj htokens
    simp [target.2] at hk
  listed := Nat.zero_le _
  nested := by
    have hthree : (assignName target equals source semicolon).nesting = 3 := rfl
    rw [hthree]
    decide
  height := by
    have hthree : (assignName target equals source semicolon).tree.outline.height = 3 := rfl
    rw [hthree]
    decide

/-- The tokens of `x = y;` up to the mark of the end. -/
def sampleTokens : List Token :=
  [⟨.identifier, "x", .nil, 1⟩, ⟨.assign, "=", .nil, 1⟩, ⟨.identifier, "y", .nil, 1⟩,
    ⟨.semicolon, ";", .nil, 1⟩, ⟨.endOfInput, "", .nil, 1⟩]

/-- The tree of `x = y;`. -/
def sampleTree : Stmt :=
  .expression (.assign ⟨.identifier, "x", .nil, 1⟩ (.name ⟨.identifier, "y", .nil, 1⟩))

/-- The derivation of `x = y;`. -/
def sampleDeclaration : Phrase .declaration :=
  assignName ⟨⟨.identifier, "x", .nil, 1⟩, rfl⟩ ⟨⟨.assign, "=", .nil, 1⟩, rfl⟩
    ⟨⟨.identifier, "y", .nil, 1⟩, rfl⟩ ⟨⟨.semicolon, ";", .nil, 1⟩, rfl⟩

private theorem accepted_sample : ∀ d ∈ [sampleDeclaration], Accepted d := by
  intro d hd
  obtain rfl := List.mem_singleton.mp hd
  exact accepted_assignName _ _ _ _

/-- The sample is read as its tree. -/
theorem parse_sample : parse sampleTokens = .ok [sampleTree] :=
  (parse_of_accepted accepted_sample ⟨.endOfInput, "", .nil, 1⟩ rfl []).1

end Sample

/-- What is read is the sequence of trees of derivations of the documented grammar. Together
they consist of the tokens in front of the first mark of the end. -/
theorem parse_sound {tokens : List Token} {program : Program} (h : parse tokens = .ok program) :
    ∃ (ds : List (Phrase .declaration)) (mark : Token) (beyond : List Token),
      tokens = ds.flatMap Phrase.tokens ++ mark :: beyond ∧ mark.isEnd = true ∧
      (∀ t ∈ ds.flatMap Phrase.tokens, t.isEnd = false) ∧
      program = ds.map Phrase.tree ∧ ∀ d ∈ ds, Accepted d := by
  obtain ⟨gs, s', hruns, herrors, rfl⟩ := runs_of_parse h
  obtain ⟨ds, htokens, hstmts, hds⟩ := accepted_of_runs hruns rfl herrors
  obtain ⟨mark, beyond, hafter, hmark⟩ := hruns.atMark
  refine ⟨ds, mark, beyond, ?_, hmark, ?_, hstmts, hds⟩
  · rw [← htokens, ← hafter]
    exact hruns.after
  · rw [← htokens]
    exact inner_of_runs hruns

/-- An assignment is read from its derivation. -/
theorem parse_sound_sample :
    ∃ (ds : List (Phrase .declaration)) (mark : Token) (beyond : List Token),
      sampleTokens = ds.flatMap Phrase.tokens ++ mark :: beyond ∧ mark.isEnd = true ∧
      (∀ t ∈ ds.flatMap Phrase.tokens, t.isEnd = false) ∧
      [sampleTree] = ds.map Phrase.tree ∧ ∀ d ∈ ds, Accepted d :=
  parse_sound parse_sample

/-- Every sequence of declarations of the documented grammar within the limits is read as the
sequence of its trees, without an error. No sequence of tokens has two readings. -/
theorem parse_complete :
    (∀ (ds : List (Phrase .declaration)) (mark : Token), (∀ d ∈ ds, Accepted d) →
      mark.isEnd = true →
        parse (ds.flatMap Phrase.tokens ++ [mark]) = .ok (ds.map Phrase.tree) ∧
          diagnose (ds.flatMap Phrase.tokens ++ [mark]) = []) ∧
    ∀ ds ds' : List (Phrase .declaration), (∀ d ∈ ds, d.Clear) → (∀ d ∈ ds', d.Clear) →
      ds.flatMap Phrase.tokens = ds'.flatMap Phrase.tokens →
        ds.map Phrase.tree = ds'.map Phrase.tree :=
  ⟨fun _ mark h hmark => parse_of_accepted h mark hmark [], fun _ _ => trees_unique⟩

/-- An assignment is read as its tree. -/
theorem parse_complete_sample :
    parse sampleTokens = .ok [sampleTree] ∧ diagnose sampleTokens = [] :=
  parse_complete.1 [sampleDeclaration] ⟨.endOfInput, "", .nil, 1⟩
    accepted_sample rfl

end Moonbridge.Parser
