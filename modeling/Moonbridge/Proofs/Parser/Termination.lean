import Moonbridge.Proofs.Parser.Correctness
import Moonbridge.Proofs.Parser.Levels
import Moonbridge.Proofs.Parser.Recovery

/-!
# How the parser ends

Every loop of the parser ends with a round of its own, after at most one round more than there are
tokens behind the cursor. The parser runs out of tokens exactly if none of them marks the end. Else
it stops at the first mark, with no production open, and what it says does not depend on the tokens
behind that mark: a program if no error was recorded, or the error that was recorded first.
-/

namespace Moonbridge.Parser

section Rounds

variable {α β : Type} {round : α → Parse (Round α β)}

/-- The rounds of a loop, counted: each one asks for another up to the last, which has the answer
or fails. -/
inductive Loops (round : α → Parse (Round α β)) :
    Nat → α → State → EStateM.Result Failure State β → Prop
  | done {a : α} {b : β} {s s' : State} (last : (round a).run s = .ok (.done b) s') :
      Loops round 1 a s (.ok b s')
  | failed {a : α} {e : Failure} {s s' : State} (last : (round a).run s = .error e s') :
      Loops round 1 a s (.error e s')
  | again {a next : α} {s s' : State} {r : EStateM.Result Failure State β} {k : Nat}
      (first : (round a).run s = .ok (.again next) s') (others : Loops round k next s' r) :
      Loops round (k + 1) a s r

/-- A loop that ends by its rounds, of which there are at most one more than tokens behind the
cursor. -/
def Ends (round : α → Parse (Round α β)) : Prop :=
  ∀ a s, ∃ k ≤ s.after.length + 1, Loops round k a s ((repeated round a).run s)

/-- A loop whose rounds move the cursor ends. -/
theorem Advances.ends (h : Advances round) : Ends round := by
  intro a s
  refine repeated_induction h
    (motive := fun a s r => ∃ k ≤ s.after.length + 1, Loops round k a s r) ?_ ?_ ?_ a s
  · rintro a s next s' hround ⟨k, hk, hloops⟩
    have hlt := h a s next s' hround
    exact ⟨k + 1, by omega, .again hround hloops⟩
  · intro a s b s' hround
    exact ⟨1, by omega, .done hround⟩
  · intro a s e s' hround
    exact ⟨1, by omega, .failed hround⟩

/-- The loops of the parser, at every level. -/
structure LoopsEnd : Prop where
  program : Ends topRound
  recovery : Ends skipRound
  body : ∀ n stop, Ends (declarationRound (rules n).declaration stop)
  parameters : Ends (commaRound (expect .identifier (.expected "parameter name")) "parameters")
  arguments : ∀ n, Ends (commaRound (rules n).expression "arguments")
  entries : ∀ n, Ends (tableRound (rules n).expression)
  suffixes : ∀ n, Ends (callRound (rules n).expression)
  operators : ∀ n t, Ends (chainRound (tierOps t) (tier (rules n).unary t))

/-- All loops of the parser end, whatever tokens stand behind the cursor. -/
theorem loopsEnd : LoopsEnd where
  program := topRound_advances.ends
  recovery := skipRound_advances.ends
  body n stop := (declarationRound_advances n stop).ends
  parameters := (parameterRound_advances _).ends
  arguments n := (argumentRound_advances n).ends
  entries n := (tableRound_advances n).ends
  suffixes n := (callRound_advances n).ends
  operators n t := (chainRound_advances n t).ends

end Rounds

section Exhaustion

/-- A production that fails by running out of tokens only. -/
def OnlyExhausts {α : Type} (p : Parse α) : Prop :=
  ∀ s e s', p.run s = .error e s' → e = .exhausted

variable {α β : Type} {p : Parse α}

/-- Two productions in a row fail by exhaustion only if each of them does. -/
theorem OnlyExhausts.bind {f : α → Parse β} (hp : OnlyExhausts p) (hf : ∀ a, OnlyExhausts (f a)) :
    OnlyExhausts (p >>= f) := by
  intro s e s' h
  rcases bind_eq_error.mp h with h | ⟨a, s₁, -, h⟩
  · exact hp s e s' h
  · exact hf a s₁ e s' h

theorem OnlyExhausts.pure (a : α) : OnlyExhausts (Pure.pure a) := by
  intro s e s' h
  cases h

/-- A loop fails by exhaustion only if its rounds do. -/
theorem OnlyExhausts.repeated {round : α → Parse (Round α β)} (hadv : Advances round)
    (h : ∀ a, OnlyExhausts (round a)) (a : α) : OnlyExhausts (repeated round a) := by
  intro s e s'
  refine repeated_induction hadv
    (motive := fun _ _ r => r = .error e s' → e = .exhausted) ?_ ?_ ?_ a s
  · intro a s next s₁ _ ih
    exact ih
  · intro a s b s₁ _ hr
    cases hr
  · intro a s e' s₁ hround hr
    cases hr
    exact h a s e s' hround

theorem current_onlyExhausts : OnlyExhausts current := by
  intro s e s' h
  rw [run_current] at h
  split at h <;> cases h
  rfl

theorem peek_onlyExhausts (offset : Int) : OnlyExhausts (peek offset) := by
  intro s e s' h
  rcases bind_eq_error.mp h with h | ⟨s₁, s₂, -, h⟩
  · cases h
  · simp only [] at h
    split at h <;> cases h
    rfl

theorem atEnd_onlyExhausts : OnlyExhausts atEnd := current_onlyExhausts.bind fun _ => .pure _

theorem advance_onlyExhausts : OnlyExhausts advance := by
  refine current_onlyExhausts.bind fun t s e s' h => ?_
  split at h <;> cases h

/-- Recovery fails by running out of tokens only. -/
theorem synchronize_onlyExhausts : OnlyExhausts synchronize := by
  rw [synchronize_eq]
  refine advance_onlyExhausts.bind fun _ => .repeated skipRound_advances (fun _ => ?_) _
  refine atEnd_onlyExhausts.bind fun ended => ?_
  split
  · exact .pure _
  refine (peek_onlyExhausts (-1)).bind fun last => ?_
  split
  · exact .pure _
  refine current_onlyExhausts.bind fun next => ?_
  split
  · exact .pure _
  · exact advance_onlyExhausts.bind fun _ => .pure _

/-- All other failures of a declaration are recovered from. -/
theorem topLevel_onlyExhausts : OnlyExhausts topLevel := by
  intro s e s' h
  rcases hrun : (rules s.room).declaration.run s with ⟨stmt, s₁⟩ | ⟨error | _, s₁⟩
  · obtain ⟨ts, es, last, hpass, hlast⟩ := declaration_ok hrun
    rw [topLevel_parsed hrun hpass hlast] at h
    cases h
  · rw [topLevel_failed hrun] at h
    exact (synchronize_onlyExhausts.bind fun _ => .pure _) _ e s' h
  · rw [topLevel_exhausted hrun] at h
    cases h
    rfl

/-- The loop over the top level catches every other failure. -/
theorem declarations_onlyExhausts : OnlyExhausts declarations := by
  rw [declarations_eq]
  refine .repeated topRound_advances (fun stmts => ?_) _
  refine atEnd_onlyExhausts.bind fun ended => ?_
  split
  · exact .pure _
  refine topLevel_onlyExhausts.bind fun o => ?_
  cases o <;> exact .pure _

/-- The parser runs out of tokens exactly if none of them marks the end. -/
theorem parse_eq_exhausted_iff {tokens : List Token} :
    parse tokens = .error .exhausted ↔ ∀ t ∈ tokens, t.isEnd = false := by
  constructor
  · intro h t ht
    rw [← Bool.not_eq_true]
    intro hend
    obtain ⟨gs, s', hruns⟩ := exists_runs (.start tokens) ⟨t, ht, hend⟩
    rw [parse_of_runs hruns] at h
    split at h <;> cases h
  · intro h
    unfold parse
    cases hrun : declarations.run (.start tokens) with
    | ok program s' =>
      obtain ⟨t, ht, hend⟩ := hasEnd_of_declarations hrun
      simp [h t ht] at hend
    | error e s' =>
      obtain rfl := declarations_onlyExhausts _ _ _ hrun
      have hprogram : program.run (.start tokens) = .error .exhausted s' :=
        bind_eq_error.mpr (Or.inl hrun)
      rw [hprogram]

end Exhaustion

section Conclusion

variable {s s' : State} {g : Segment} {gs : List Segment}

/-- An attempt leaves its tokens in front of the cursor. -/
theorem Attempt.before (h : Attempt s g s') : s'.before = g.tokens.reverse ++ s.before := by
  cases h with
  | parsed run passes isLast => simp [passes.state]
  | failed run moved cursor split inner skips recovers => simp [State.caught, moved.before]

/-- A run leaves the tokens of its segments in front of the cursor. -/
theorem Runs.before (h : Runs s gs s') :
    s'.before = (gs.flatMap (·.tokens)).reverse ++ s.before := by
  induction h with
  | ended => rfl
  | step hs hend first others ih => rw [ih, first.before]; simp

/-- A run that starts with no production open ends with none open. -/
theorem Runs.depth (h : Runs s gs s') (hs : s.depth = 0) : s'.depth = 0 := by
  induction h with
  | ended => exact hs
  | step _ _ first others ih => exact ih (first.depth hs)

/-- What stands behind a mark of the end makes no difference. -/
theorem parse_beyond {tokens : List Token} (hend : ∃ t ∈ tokens, t.isEnd = true)
    (beyond : List Token) :
    parse (tokens ++ beyond) = parse tokens ∧ diagnose (tokens ++ beyond) = diagnose tokens := by
  have hcarried := parse_carried .identity hend beyond
  rwa [Relabeling.token_identity, List.map_id, relabelOutcome_identity,
    ParseError.relabel_identity, List.map_id] at hcarried

/-- How the parser ends on a token list with a mark of the end, in the state `s'`. -/
structure Concludes (tokens : List Token) (s' : State) : Prop where
  position : s'.position = tokens.findIdx Token.isEnd
  depth : s'.depth = 0
  /-- A program without errors is returned, or the first error is raised. -/
  outcome :
    (∃ program, Parser.program.run (.start tokens) = .ok program s' ∧
      parse tokens = .ok program ∧ s'.errors = #[]) ∨
    ∃ error, Parser.program.run (.start tokens) = .error (.rejected error) s' ∧
      parse tokens = .error (.rejected error) ∧ s'.errors[0]? = some error

/-- The run of the loop determines how the parser ends. -/
theorem concludes_of_runs {tokens : List Token} (h : Runs (.start tokens) gs s') :
    Concludes tokens s' := by
  have hrun := run_program h
  constructor
  · obtain ⟨mark, beyond, hafter, hmark⟩ := h.atMark
    have htokens : tokens = gs.flatMap (·.tokens) ++ mark :: beyond := by
      rw [← hafter]
      exact h.after
    have hinner : (gs.flatMap (·.tokens)).findIdx Token.isEnd = (gs.flatMap (·.tokens)).length :=
      List.findIdx_eq_length.mpr (inner_of_runs h)
    rw [State.position, h.before, htokens, List.findIdx_append, hinner, List.findIdx_cons, hmark]
    simp [State.start]
  · exact h.depth rfl
  · unfold parse
    rw [hrun]
    cases herror : s'.errors[0]? with
    | none =>
      have hempty : s'.errors = #[] := by simpa using herror
      exact Or.inl ⟨_, rfl, rfl, hempty⟩
    | some error => exact Or.inr ⟨error, rfl, rfl, rfl⟩

end Conclusion

/-- The parser ends on every token list. It runs out of tokens exactly if none of them marks the
end; else it stops at the first mark with no production open, what it says depends on the tokens up
to that mark only, and it returns a program if it has recorded no error and else the first one. -/
theorem parse_terminates :
    LoopsEnd ∧
    (∀ (s : State) (n : Nat), s.room ≤ n →
      (rules n).declaration.run s = (rules s.room).declaration.run s) ∧
    ∀ tokens : List Token,
      (parse tokens = .error .exhausted ↔ ∀ t ∈ tokens, t.isEnd = false) ∧
      ((∃ t ∈ tokens, t.isEnd = true) →
        (∀ tokens' : List Token, tokens'.take (tokens.findIdx Token.isEnd + 1) =
            tokens.take (tokens.findIdx Token.isEnd + 1) →
          parse tokens' = parse tokens ∧ diagnose tokens' = diagnose tokens) ∧
        ∃ s', Concludes tokens s') := by
  refine ⟨loopsEnd, fun s n => declaration_room, fun tokens => ⟨parse_eq_exhausted_iff, ?_⟩⟩
  intro hend
  constructor
  · intro tokens' htake
    have hlt : tokens.findIdx Token.isEnd < tokens.length := List.findIdx_lt_length.mpr hend
    have hmark : ∃ t ∈ tokens.take (tokens.findIdx Token.isEnd + 1), t.isEnd = true :=
      ⟨tokens[tokens.findIdx Token.isEnd],
        List.mem_take_iff_getElem.mpr ⟨_, by omega, rfl⟩, List.findIdx_getElem⟩
    have hfirst := parse_beyond hmark (tokens.drop (tokens.findIdx Token.isEnd + 1))
    have hsecond := parse_beyond hmark (tokens'.drop (tokens.findIdx Token.isEnd + 1))
    rw [List.take_append_drop] at hfirst
    rw [← htake, List.take_append_drop, htake] at hsecond
    exact ⟨hsecond.1.trans hfirst.1.symm, hsecond.2.trans hfirst.2.symm⟩
  · obtain ⟨gs, s', hruns⟩ := exists_runs (.start tokens) hend
    exact ⟨s', concludes_of_runs hruns⟩

/-- A semicolon alone ends the tokens too early; with a mark of the end behind it, nothing further
matters. -/
theorem parse_terminates_semicolon :
    parse [⟨.semicolon, ";", .nil, 1⟩] = .error .exhausted ∧
    parse [⟨.semicolon, ";", .nil, 1⟩, ⟨.endOfInput, "", .nil, 1⟩, ⟨.dot, ".", .nil, 2⟩] =
      parse [⟨.semicolon, ";", .nil, 1⟩, ⟨.endOfInput, "", .nil, 1⟩] ∧
    ∃ s', Concludes [⟨.semicolon, ";", .nil, 1⟩, ⟨.endOfInput, "", .nil, 1⟩] s' := by
  have hmark : ∃ t ∈ [(⟨.semicolon, ";", .nil, 1⟩ : Token), ⟨.endOfInput, "", .nil, 1⟩],
      t.isEnd = true := ⟨⟨.endOfInput, "", .nil, 1⟩, by simp, rfl⟩
  obtain ⟨hsame, hconcludes⟩ := (parse_terminates.2.2
    [⟨.semicolon, ";", .nil, 1⟩, ⟨.endOfInput, "", .nil, 1⟩]).2 hmark
  exact ⟨(parse_terminates.2.2 [⟨.semicolon, ";", .nil, 1⟩]).1.mpr (by simp [Token.isEnd]),
    (hsame _ (by rfl)).1, hconcludes⟩

end Moonbridge.Parser
