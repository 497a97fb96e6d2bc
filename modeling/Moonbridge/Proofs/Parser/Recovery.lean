import Moonbridge.Proofs.Grammar.Located
import Moonbridge.Proofs.Parser.Surroundings

/-!
# Recovery

A declaration that fails leaves nothing behind but its own errors. Each round of the loop over
the top level depends only on the tokens from the cursor up to the mark of the end, so that the
errors recorded from a segment on are those of a parser that starts there; and each error points
into its own segment or at the mark of the end.
-/

namespace Moonbridge.Parser

section Located

variable {s s' : State} {g : Segment} {gs : List Segment}

/-- The error of a height points into the declaration. -/
theorem heightErrors_located {d : Grammar.Phrase .declaration} {last : Token} {e : ParseError}
    (hlast : last ∈ d.tokens) (he : e ∈ heightErrors d.tree last) : e.token ∈ d.tokens := by
  unfold heightErrors at he
  cases hsearch : Outline.firstBeyond maxHeight [⟨d.tree.outline, 1, last⟩] with
  | none => simp [hsearch] at he
  | some t =>
    rw [hsearch] at he
    obtain rfl := List.mem_singleton.mp he
    obtain ⟨v, hv, ht⟩ := Outline.firstBeyond_mem hsearch
    obtain rfl := List.mem_singleton.mp hv
    rcases ht with rfl | ht
    · exact hlast
    · exact d.marks_subset t ht

/-- An error of an attempt points into its segment, or at the mark of the end behind it. -/
theorem Attempt.located (h : Attempt s g s') : ∀ e ∈ g.errors,
    e.token ∈ g.tokens ∨ (s'.after.head? = some e.token ∧ e.token.isEnd = true) := by
  cases h with
  | parsed run passes isLast =>
    obtain ⟨d, rfl, -, -, hd⟩ := declaration_sound s.room s _ _ run
    obtain ⟨rfl, rfl⟩ := passes.unique hd
    intro e he
    rcases List.mem_append.mp he with he | he
    · exact Or.inl (d.errors_located e he)
    · exact Or.inl (heightErrors_located (List.mem_of_getLast? isLast) he)
  | @failed error s₁ ts skipped rest es run moved cursor split inner skips recovers =>
    have hrest : ((s₁.caught error).pass skipped []).after = rest :=
      State.pass_after_of_append split []
    -- What is located at the cursor of the failure is skipped, or it is the mark of the end.
    have hcursor : ∀ t, s₁.after.head? = some t →
        t ∈ ts ++ skipped ∨ (rest.head? = some t ∧ t.isEnd = true) := by
      intro t ht
      rw [split] at ht
      cases skipped with
      | nil =>
        rcases skips with ⟨-, mark, hmark, hend⟩ | hbound
        · obtain rfl : mark = t := by simpa [hmark] using ht
          exact Or.inr ⟨hmark, hend⟩
        · obtain ⟨last, next, hlast, -⟩ := hbound.boundary
          cases hlast
      | cons u us =>
        obtain rfl : u = t := by simpa using ht
        exact Or.inl (by simp)
    rw [hrest]
    intro e he
    rcases List.mem_append.mp he with he | he
    · rcases moved.located e he with ht | ht
      · exact Or.inl (List.mem_append_left _ ht)
      · exact hcursor e.token ht
    · obtain rfl := List.mem_singleton.mp he
      exact hcursor _ cursor

/-- Every attempt passes a token. -/
theorem Attempt.tokens_ne_nil (h : Attempt s g s') {t : Token} {rest : List Token}
    (hs : s.after = t :: rest) (ht : t.isEnd = false) : g.tokens ≠ [] := by
  obtain ⟨ts, hts, hne⟩ := topLevel_ok hs ht h.run_eq
  rw [List.append_cancel_right (h.after.symm.trans hts)]
  exact hne

/-- The segments of a run are not empty, do not contain the mark of the end, and their errors
point into them or at that mark. -/
theorem Runs.segments (h : Runs s gs s') {mark : Token} {beyond : List Token}
    (hafter : s'.after = mark :: beyond) : ∀ g ∈ gs, g.tokens ≠ [] ∧
      (∀ t ∈ g.tokens, t.isEnd = false) ∧ ∀ e ∈ g.errors, e.token ∈ g.tokens ∨ e.token = mark := by
  induction h with
  | ended => simp
  | @step s s₁ s' t rest g gs hs hend first others ih =>
    simp only [List.mem_cons, forall_eq_or_imp]
    refine ⟨⟨first.tokens_ne_nil hs hend, first.inner, ?_⟩, ih hafter⟩
    intro e he
    rcases first.located e he with ht | ⟨hhead, hmark⟩
    · exact Or.inl ht
    · -- A further segment would begin with the mark of the end.
      cases others with
      | ended hs' _ =>
        rw [hafter] at hhead
        exact Or.inr (Option.some.inj hhead).symm
      | step hs' hend' _ _ =>
        rw [hs'] at hhead
        obtain rfl := Option.some.inj hhead
        simp [hmark] at hend'

end Located

section Locality

variable {s s' : State}

/-- The rest of a run, from the state that its first segments lead to. -/
theorem Runs.rest {pre post : List Segment} (h : Runs s (pre ++ post) s') (hs : s.depth = 0) :
    ∃ s₁, Runs s₁ post s' ∧ s₁.depth = 0 ∧
      s₁.after = post.flatMap (·.tokens) ++ s'.after := by
  induction pre generalizing s with
  | nil => exact ⟨s, h, hs, h.after⟩
  | cons g pre ih =>
    cases h with
    | step _ _ first others => exact ih others (first.depth hs)

/-- The errors recorded from a segment on are those of a parser that starts there. -/
theorem Runs.diagnose_rest {pre post : List Segment} (h : Runs s (pre ++ post) s')
    (hs : s.depth = 0) :
    diagnose (post.flatMap (·.tokens) ++ s'.after) = post.flatMap (·.errors) := by
  obtain ⟨s₁, hrest, hdepth, hafter⟩ := h.rest hs
  rw [← hafter]
  have hend : (State.start s₁.after).HasEnd := by
    obtain ⟨mark, beyond, hmark, hisEnd⟩ := h.atMark
    exact ⟨mark, by simp [State.start, hafter, hmark], hisEnd⟩
  obtain ⟨gs, s₂, hfresh⟩ := exists_runs (.start s₁.after) hend
  have hstart : (Context.within s₁.before [] s₁.errors).state (.start s₁.after) = s₁ := by
    rw [Context.state_within]
    simp [State.start, ← hdepth]
  have hbehind := hfresh.within hend s₁.before [] s₁.errors
  rw [hstart] at hbehind
  -- Both runs are the run of the loop from the same state.
  have hsame := (hbehind.run_eq #[]).symm.trans (hrest.run_eq #[])
  injection hsame with _ hstate
  have herrors := hrest.errors
  rw [← hstate, Context.state_within] at herrors
  simp only [Array.append_right_inj] at herrors
  rw [diagnose_of_runs hfresh]
  have hfreshErrors := hfresh.errors
  rw [herrors] at hfreshErrors
  simpa [State.start] using hfreshErrors.symm

end Locality

section Computed

/-- The segments that the loop cuts from the tokens ahead, at most as many as given. Each holds what
one round passes, records and answers. -/
def segmentsFrom : Nat → State → List Segment
  | 0, _ => []
  | n + 1, s =>
    match s.after.head?, topLevel.run s with
    | some t, .ok stmt s' =>
      if t.isEnd then []
      else
        ⟨s.after.take (s.after.length - s'.after.length), s'.errors.toList.drop s.errors.size, stmt⟩
          :: segmentsFrom n s'
    | _, _ => []

/-- A token list is cut in one way only, which can be computed. -/
theorem Runs.eq_segmentsFrom {s s' : State} {gs : List Segment} (h : Runs s gs s') {n : Nat}
    (hn : s.after.length ≤ n) : gs = segmentsFrom n s := by
  induction h generalizing n with
  | @ended s mark rest hs hend =>
    cases n with
    | zero => rfl
    | succ n =>
      unfold segmentsFrom
      rw [hs, List.head?_cons]
      cases topLevel.run s <;> simp [hend]
  | @step s s₁ s' t rest g gs hs hend first others ih =>
    have hlength : s.after.length = g.tokens.length + s₁.after.length := by
      rw [first.after, List.length_append]
    have hpos : 0 < g.tokens.length := List.length_pos_iff.mpr (first.tokens_ne_nil hs hend)
    cases n with
    | zero => omega
    | succ n =>
      have htokens : s.after.take (s.after.length - s₁.after.length) = g.tokens := by
        have hlast : s.after.length - s₁.after.length = g.tokens.length := by omega
        rw [hlast, first.after, List.take_left]
      have herrors : s₁.errors.toList.drop s.errors.size = g.errors := by
        simp [first.errors, ← Array.length_toList]
      have hhead : s.after.head? = some t := by rw [hs, List.head?_cons]
      unfold segmentsFrom
      rw [first.run_eq, hhead]
      simp only [hend, Bool.false_eq_true, if_false, htokens, herrors]
      rw [← ih (by omega)]

end Computed

/-- The run of the loop over the top level, cut into the segments `gs` in front of the first mark
of the end. -/
structure Recovers (tokens : List Token) (gs : List Segment) (mark : Token)
    (beyond : List Token) : Prop where
  /-- Each segment is what one round of the loop attempts, and they make up the whole loop. -/
  rounds : ∃ s', Runs (.start tokens) gs s' ∧
    declarations.run (.start tokens) = .ok (gs.filterMap (·.stmt)) s'
  split : tokens = gs.flatMap (·.tokens) ++ mark :: beyond
  isEnd : mark.isEnd = true
  nonempty : ∀ g ∈ gs, g.tokens ≠ [] ∧ ∀ t ∈ g.tokens, t.isEnd = false
  errors : diagnose tokens = gs.flatMap (·.errors)
  /-- From any segment on, the errors are those of a parser that starts there. -/
  local_errors : ∀ pre post, gs = pre ++ post →
    diagnose (post.flatMap (·.tokens) ++ mark :: beyond) = post.flatMap (·.errors)
  located : ∀ g ∈ gs, ∀ e ∈ g.errors, e.token ∈ g.tokens ∨ e.token = mark
  /-- The error of the program is the first one of the first segment that has one. -/
  raised : ∀ e, parse tokens = .error (.rejected e) ↔ ∃ pre g post es,
    gs = pre ++ g :: post ∧ (∀ g' ∈ pre, g'.errors = []) ∧ g.errors = e :: es
  returned : (∀ g ∈ gs, g.errors = []) ↔ parse tokens = .ok (gs.filterMap (·.stmt))

/-- The first error of several segments is the first one of the first segment that has one. -/
theorem flatMap_errors_eq_cons {gs : List Segment} {e : ParseError} :
    (∃ es, gs.flatMap (·.errors) = e :: es) ↔ ∃ pre g post es,
      gs = pre ++ g :: post ∧ (∀ g' ∈ pre, g'.errors = []) ∧ g.errors = e :: es := by
  constructor
  · rintro ⟨es, h⟩
    induction gs with
    | nil => cases h
    | cons g gs ih =>
      cases hg : g.errors with
      | nil =>
        rw [List.flatMap_cons, hg] at h
        obtain ⟨pre, g', post, es', rfl, hpre, hg'⟩ := ih h
        refine ⟨g :: pre, g', post, es', rfl, ?_, hg'⟩
        simp only [List.mem_cons, forall_eq_or_imp]
        exact ⟨hg, hpre⟩
      | cons e' es' =>
        rw [List.flatMap_cons, hg] at h
        obtain rfl : e' = e := (List.cons.inj h).1
        exact ⟨[], g, gs, es', rfl, by simp, hg⟩
  · rintro ⟨pre, g, post, es, rfl, hpre, hg⟩
    have hnil : pre.flatMap (·.errors) = [] := List.flatMap_eq_nil_iff.mpr hpre
    exact ⟨es ++ post.flatMap (·.errors), by simp [hnil, hg]⟩

/-- After a failure the parser starts afresh behind what it has skipped. -/
theorem recovery_restarts {tokens : List Token} (h : ∃ t ∈ tokens, t.isEnd = true) :
    ∃ gs mark beyond, Recovers tokens gs mark beyond := by
  obtain ⟨gs, s', hruns⟩ := exists_runs (.start tokens) h
  obtain ⟨mark, beyond, hafter, hmark⟩ := hruns.atMark
  have hsegments := hruns.segments hafter
  have hparse := parse_of_runs hruns
  refine ⟨gs, mark, beyond, ?_⟩
  constructor
  · refine ⟨s', hruns, ?_⟩
    rw [declarations_eq, hruns.run_eq]
    rfl
  · rw [← hafter]
    exact hruns.after
  · exact hmark
  · exact fun g hg => ⟨(hsegments g hg).1, (hsegments g hg).2.1⟩
  · exact diagnose_of_runs hruns
  · rintro pre post rfl
    rw [← hafter]
    exact hruns.diagnose_rest rfl
  · exact fun g hg => (hsegments g hg).2.2
  · intro e
    rw [hparse, ← flatMap_errors_eq_cons]
    cases gs.flatMap (·.errors) <;> simp
  · rw [hparse, ← List.flatMap_eq_nil_iff]
    cases gs.flatMap (·.errors) <;> simp

section Sample

/-- The mark of the end on the third line. -/
def thirdEnd : Token := ⟨.endOfInput, "", .nil, 3⟩

/-- A closing parenthesis in the place of a value; what follows it is skipped. -/
def brokenValue : Segment where
  tokens := [⟨.identifier, "a", .nil, 1⟩, ⟨.assign, "=", .nil, 1⟩, ⟨.rightParen, ")", .nil, 1⟩,
    ⟨.identifier, "b", .nil, 1⟩, ⟨.semicolon, ";", .nil, 1⟩]
  errors := [⟨.expected "expression", ⟨.rightParen, ")", .nil, 1⟩⟩]
  stmt := none

/-- A statement without faults. -/
def loneReturn : Segment where
  tokens := [⟨.returnKeyword, "return", .nil, 2⟩, ⟨.semicolon, ";", .nil, 2⟩]
  errors := []
  stmt := some (.returned ⟨.returnKeyword, "return", .nil, 2⟩ none)

/-- A declaration without a name. -/
def namelessLocal : Segment where
  tokens := [⟨.localKeyword, "local", .nil, 3⟩, ⟨.semicolon, ";", .nil, 3⟩]
  errors := [⟨.expected "variable name", ⟨.semicolon, ";", .nil, 3⟩⟩]
  stmt := none

/-- Two faulty declarations around a statement that is read. -/
def faultyTokens : List Token :=
  [brokenValue, loneReturn, namelessLocal].flatMap (·.tokens) ++ [thirdEnd]

/-- The loop cuts the sample in three. -/
theorem segmentsFrom_faultyTokens :
    segmentsFrom 10 (.start faultyTokens) = [brokenValue, loneReturn, namelessLocal] := by
  with_unfolding_all rfl

end Sample

/-- Behind a failure the parser reads a statement and finds a further error. -/
theorem recovery_restarts_faultyTokens :
    (∃ t ∈ faultyTokens, t.isEnd = true) ∧
      Recovers faultyTokens [brokenValue, loneReturn, namelessLocal] thirdEnd [] := by
  have hend : ∃ t ∈ faultyTokens, t.isEnd = true := ⟨thirdEnd, by simp [faultyTokens], rfl⟩
  obtain ⟨gs, mark, beyond, h⟩ := recovery_restarts hend
  obtain ⟨s', hruns, -⟩ := h.rounds
  have hgs : gs = [brokenValue, loneReturn, namelessLocal] :=
    (hruns.eq_segmentsFrom (Nat.le_refl 10)).trans segmentsFrom_faultyTokens
  subst hgs
  have hmark : [thirdEnd] = mark :: beyond := List.append_cancel_left h.split
  obtain ⟨rfl, rfl⟩ := List.cons.inj hmark
  exact ⟨hend, h⟩

end Moonbridge.Parser
