import Moonbridge.Proofs.Parser.Program

/-!
# Runs in other surroundings

A round of the loop over the top level sees the tokens from the cursor up to the mark of the end,
and of these only the kinds, the texts and the values. Whatever was read before, whatever stands
behind the mark of the end and whatever lines the tokens are on, it makes the same attempt. So a
whole run goes the same way in other surroundings, and what it says differs in labels only.
-/

namespace Moonbridge.Parser

section Skipping

variable (r : Relabeling)

@[simp] theorem boundary_token (t u : Token) :
    Boundary (r.token t) (r.token u) ↔ Boundary t u := by
  simp [Boundary]

/-- Skipping stops at the same place under any labels, and in front of the mark of the end
whatever stands behind it. -/
theorem skipFrom_carried (t : Token) {ts : List Token} (hend : ∃ u ∈ ts, u.isEnd = true)
    (beyond : List Token) :
    skipFrom (r.token t) (ts.map r.token ++ beyond) = (skipFrom t ts).map r.token := by
  induction ts generalizing t with
  | nil => simp at hend
  | cons u rest ih =>
    by_cases h : Boundary t u
    · simp [skipFrom, h]
    · have hu : u.isEnd = false := Bool.eq_false_iff.mpr fun hu => h (Or.inl hu)
      have hrest : ∃ v ∈ rest, v.isEnd = true := by simpa [hu] using hend
      simp [skipFrom, h, ih u hrest]

/-- What recovery skips does not depend on labels, nor on what stands behind the mark of the end. -/
theorem skippedAt_carried {ts : List Token} (hend : ∃ u ∈ ts, u.isEnd = true)
    (beyond : List Token) :
    skippedAt (ts.map r.token ++ beyond) = (skippedAt ts).map r.token := by
  cases ts with
  | nil => simp at hend
  | cons t rest =>
    cases ht : t.isEnd with
    | true => simp [skippedAt, ht]
    | false =>
      have hrest : ∃ v ∈ rest, v.isEnd = true := by simpa [ht] using hend
      simp [skippedAt, ht, skipFrom_carried r t hrest]

end Skipping

/-- The error of a height is blamed on the relabeled token. -/
theorem heightErrors_relabel (r : Relabeling) (stmt : Stmt) (near : Token) :
    heightErrors (stmt.relabel r) (r.token near) =
      (heightErrors stmt near).map (ParseError.relabel r) := by
  have hsearch := Outline.firstBeyond_relabel r maxHeight [⟨stmt.outline, 1, near⟩]
  rw [List.map_cons, List.map_nil, Outline.Visit.relabel] at hsearch
  unfold heightErrors
  rw [Stmt.outline_relabel, hsearch]
  cases Outline.firstBeyond maxHeight [⟨stmt.outline, 1, near⟩] <;> rfl

/-- A segment with relabeled tokens. -/
def Segment.relabel (r : Relabeling) (g : Segment) : Segment where
  tokens := g.tokens.map r.token
  errors := g.errors.map (ParseError.relabel r)
  stmt := g.stmt.map (Stmt.relabel r)

section Runs

variable {s s' s₁ : State} {g : Segment} {gs : List Segment} {ts : List Token}
  {es : List ParseError}

/-- The mark of the end stays in other surroundings. -/
theorem State.HasEnd.carried (h : s.HasEnd) (x : Context) : (x.state s).HasEnd := by
  obtain ⟨t, ht, hend⟩ := h
  exact ⟨x.token t, List.mem_append_left _ (List.mem_map_of_mem ht), by simpa using hend⟩

/-- What is passed alone is passed in other surroundings, with their labels. -/
theorem Passes.carried (h : Passes s s₁ ts es) (x : Context) :
    Passes (x.state s) (x.state s₁) (ts.map x.token)
      (es.map (ParseError.relabel x.toRelabeling)) where
  after := by simp [Context.state, h.after]
  state := by rw [← x.state_pass ts h.after, ← h.state]

/-- The token at the cursor is the relabeled one. -/
theorem Context.head?_after {t : Token} (x : Context) (h : s.after.head? = some t) :
    (x.state s).after.head? = some (x.token t) := by
  obtain ⟨rest, hs⟩ := List.head?_eq_some_iff.mp h
  rw [Context.state_after hs]
  rfl

/-- A move alone is a move in other surroundings, with their labels. -/
theorem Moved.carried (h : Moved s s₁ ts es) (x : Context) :
    Moved (x.state s) (x.state s₁) (ts.map x.token)
      (es.map (ParseError.relabel x.toRelabeling)) where
  after := by simp [Context.state, h.after]
  before := by simp [Context.state, h.before]
  errors := by simp [Context.state, h.errors]
  inner := by simpa using h.inner
  located := by
    intro e' he'
    obtain ⟨e, he, rfl⟩ := List.mem_map.mp he'
    rcases h.located e he with ht | ht
    · exact Or.inl (List.mem_map_of_mem ht)
    · exact Or.inr (x.head?_after ht)

/-- A failure is caught in other surroundings as it is alone. -/
theorem Context.state_caught (x : Context) (s : State) (error : ParseError) :
    x.state (s.caught error) = (x.state s).caught (error.relabel x.toRelabeling) := by
  simp [Context.state, State.caught]

/-- A round of the loop makes the same attempt in other surroundings. -/
theorem Attempt.carried (h : Attempt s g s') (hend : s.HasEnd) (x : Context) :
    Attempt (x.state s) (g.relabel x.toRelabeling) (x.state s') := by
  cases h with
  | @parsed stmt s₁ ts es last run passes isLast =>
    have hrun := (declaration_regular x s.room s).carry hend
    rw [run] at hrun
    have hlast : (ts.map x.token).getLast? = some (x.token last) := by
      rw [List.getLast?_map, isLast, Option.map_some]
    have hattempt := Attempt.parsed (s := x.state s) hrun (passes.carried x) hlast
    rw [heightErrors_relabel] at hattempt
    rw [x.state_pass [] (List.nil_append s₁.after).symm]
    simpa [Segment.relabel] using hattempt
  | @failed error s₁ ts skipped rest es run moved cursor split inner skips recovers =>
    have hrun := (declaration_regular x s.room s).carry hend
    rw [run] at hrun
    have hend₁ : s₁.HasEnd := moved.hasEnd hend
    obtain ⟨rest', hsplit, hinner, hskips⟩ := skippedAt_spec (hend₁.carried x)
    have hrecovers := run_synchronize
      (s := (x.state s₁).caught (error.relabel x.toRelabeling)) (hend₁.carried x)
    have hattempt := Attempt.failed (s := x.state s) hrun (moved.carried x)
      (x.head?_after cursor) hsplit hinner hskips hrecovers
    -- The same tokens are skipped, because the first boundary is found by kinds.
    have hskipped : skipped = skippedAt s₁.after := by
      have hsame := recovers.symm.trans (run_synchronize (s := s₁.caught error) hend₁)
      injection hsame with _ hstate
      simpa [State.caught] using congrArg State.before hstate
    have hcarried : skippedAt (x.state s₁).after = skipped.map x.token := by
      rw [hskipped]
      exact skippedAt_carried x.toRelabeling hend₁ x.beyond
    have hafter : (s₁.caught error).after = skipped ++ rest := split
    rw [hcarried] at hattempt
    rw [x.state_pass skipped hafter, Context.state_caught]
    simpa [Segment.relabel] using hattempt

/-- A run goes the same way in other surroundings. -/
theorem Runs.carried (h : Runs s gs s') (hend : s.HasEnd) (x : Context) :
    Runs (x.state s) (gs.map (Segment.relabel x.toRelabeling)) (x.state s') := by
  induction h with
  | ended hs hmark => exact .ended (Context.state_after hs) (by simpa using hmark)
  | step hs ht first others ih =>
    exact .step (Context.state_after hs) (by simpa using ht) (first.carried hend x)
      (ih (first.hasEnd hend))

end Runs

section Within

/-- The surroundings of a token list that is a part of another one. -/
def Context.within (before beyond : List Token) (errors : Array ParseError) : Context :=
  ⟨.identity, before, beyond, errors⟩

@[simp] theorem Context.state_within (before beyond : List Token) (errors : Array ParseError)
    (s : State) : (Context.within before beyond errors).state s =
      ⟨s.before ++ before, s.after ++ beyond, s.depth, errors ++ s.errors⟩ := by
  simp [Context.state, Context.within]

/-- Labels that are kept change no segment. -/
theorem Segment.relabel_identity : Segment.relabel .identity = id := by
  have hstmt : Stmt.relabel .identity = id := funext Stmt.relabel_identity
  funext g
  simp [Segment.relabel, hstmt]

/-- A run goes the same way whatever was read before and whatever stands behind the mark of the
end. -/
theorem Runs.within {s s' : State} {gs : List Segment} (h : Runs s gs s') (hend : s.HasEnd)
    (before beyond : List Token) (errors : Array ParseError) :
    Runs ((Context.within before beyond errors).state s) gs
      ((Context.within before beyond errors).state s') := by
  have hcarried := h.carried hend (.within before beyond errors)
  have hsegments : gs.map (Segment.relabel (Context.within before beyond errors).toRelabeling) =
      gs := by
    simp [Context.within, Segment.relabel_identity]
  rwa [hsegments] at hcarried

end Within

/-- What the parser says about relabeled tokens. -/
def relabelOutcome (r : Relabeling) : Except Failure Program → Except Failure Program
  | .ok program => .ok (program.map (Stmt.relabel r))
  | .error failure => .error (failure.relabel r)

/-- Labels that are kept change no outcome. -/
theorem relabelOutcome_identity (outcome : Except Failure Program) :
    relabelOutcome .identity outcome = outcome := by
  have hstmt : Stmt.relabel .identity = id := funext Stmt.relabel_identity
  rcases outcome with (error | _) | program
  · rfl
  · rfl
  · simp [relabelOutcome, hstmt]

/-- The parser says the same about tokens with other labels, and it does not see what stands
behind the mark of the end. -/
theorem parse_carried (r : Relabeling) {tokens : List Token} (hend : ∃ t ∈ tokens, t.isEnd = true)
    (beyond : List Token) :
    parse (tokens.map r.token ++ beyond) = relabelOutcome r (parse tokens) ∧
      diagnose (tokens.map r.token ++ beyond) =
        (diagnose tokens).map (ParseError.relabel r) := by
  obtain ⟨gs, s', hruns⟩ := exists_runs (.start tokens) hend
  let x : Context := ⟨r, [], beyond, #[]⟩
  have hstart : x.state (.start tokens) = .start (tokens.map r.token ++ beyond) := by
    simp [x, Context.state, State.start]
  have hcarried := hruns.carried hend x
  rw [hstart] at hcarried
  have herrors : (gs.map (Segment.relabel r)).flatMap (·.errors) =
      (gs.flatMap (·.errors)).map (ParseError.relabel r) := by
    simp [List.flatMap_map, List.map_flatMap, Segment.relabel]
  have hstmts : (gs.map (Segment.relabel r)).filterMap (·.stmt) =
      (gs.filterMap (·.stmt)).map (Stmt.relabel r) := by
    simp [List.filterMap_map, List.map_filterMap, Segment.relabel, Function.comp_def]
  constructor
  · rw [parse_of_runs hcarried, parse_of_runs hruns, herrors, hstmts]
    cases gs.flatMap (·.errors) <;> rfl
  · rw [diagnose_of_runs hcarried, diagnose_of_runs hruns, herrors]

end Moonbridge.Parser
