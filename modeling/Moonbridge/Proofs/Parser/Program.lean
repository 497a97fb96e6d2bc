import Moonbridge.Proofs.Parser.Soundness
import Moonbridge.Proofs.Tree.Height

/-!
# The run of a whole program

The loop over the declarations of the top level cuts the tokens into segments, one for each
round: a declaration that was read, or one that failed together with the tokens that were
skipped behind the failure. A run of the loop is a sequence of such attempts up to the mark of
the end, and every token list with such a mark has exactly that run.
-/

namespace Moonbridge.Parser

section Skipping

/-- A place where reading goes on after a failure: at the end, behind a semicolon, or in front
of a token that begins a statement. -/
def Boundary (previous next : Token) : Prop :=
  next.isEnd = true ∨ previous.kind = .semicolon ∨ startsStatement next.kind = true

/-- A boundary is told by the kinds of the two tokens. -/
instance (previous next : Token) : Decidable (Boundary previous next) :=
  inferInstanceAs (Decidable (_ ∨ _ ∨ _))

/-- The first boundary in `ts ++ rest` is the one between the two. -/
structure UpToBoundary (ts rest : List Token) : Prop where
  boundary : ∃ last next, ts.getLast? = some last ∧ rest.head? = some next ∧ Boundary last next
  first : ∀ (i : Nat) (t u : Token), ts[i]? = some t → ts[i + 1]? = some u → ¬ Boundary t u

/-- What is skipped in front of `rest` after a failure: nothing at the end, else the token of
the failure and those behind it up to the first boundary. -/
def Skipped (ts rest : List Token) : Prop :=
  (ts = [] ∧ ∃ mark, rest.head? = some mark ∧ mark.isEnd = true) ∨ UpToBoundary ts rest

/-- A boundary behind the first token is the first one. -/
theorem UpToBoundary.single {t u : Token} (h : Boundary t u) (rest : List Token) :
    UpToBoundary [t] (u :: rest) where
  boundary := ⟨t, u, rfl, rfl, h⟩
  first := by simp

/-- A first boundary stays the first one behind a token that has none behind it. -/
theorem UpToBoundary.cons {t u : Token} {ts rest : List Token} (h : ¬ Boundary t u)
    (hts : UpToBoundary (u :: ts) rest) : UpToBoundary (t :: u :: ts) rest where
  boundary := by
    obtain ⟨last, next, hlast, hnext, hb⟩ := hts.boundary
    exact ⟨last, next, by rwa [List.getLast?_cons_cons], hnext, hb⟩
  first := by
    intro i v w hv hw
    cases i with
    | zero =>
      obtain rfl : t = v := by simpa using hv
      obtain rfl : u = w := by simpa using hw
      exact h
    | succ i => exact hts.first i v w (by simpa using hv) (by simpa using hw)

/-- One more token is skipped, unless a boundary is reached. -/
def skipRound (_ : Unit) : Parse (Round Unit Unit) := do
  if ← atEnd then return .done ()
  if (← previous).kind == .semicolon then return .done ()
  if startsStatement (← current).kind then return .done ()
  let _ ← advance
  return .again ()

/-- Recovery skips the token of the failure, and then rounds of tokens. -/
theorem synchronize_eq : synchronize = (advance >>= fun _ => repeated skipRound ()) := by
  unfold synchronize
  simp only [discard_bind]
  rfl

/-- The previous token is the nearest one in front of the cursor. -/
theorem previous_cons {s : State} {t : Token} {rest : List Token} (h : s.before = t :: rest) :
    previous.run s = .ok t s := by
  obtain ⟨before, after, depth, errors⟩ := s
  obtain rfl : before = t :: rest := h
  rfl

variable {s : State} {t u : Token} {before rest : List Token}

/-- At a boundary nothing more is skipped. -/
theorem skipRound_boundary (hb : s.before = t :: before) (ha : s.after = u :: rest)
    (h : Boundary t u) : (skipRound ()).run s = .ok (.done ()) s := by
  unfold skipRound
  rw [bind_of_ok (atEnd_cons ha)]
  cases hu : u.isEnd with
  | true => rfl
  | false =>
    simp only [Bool.false_eq_true, if_false]
    rw [bind_of_ok (previous_cons hb)]
    by_cases ht : t.kind = .semicolon
    · simp [ht]
    · have hstart : startsStatement u.kind = true := by simpa [Boundary, hu, ht] using h
      simp only [beq_iff_eq, ht, if_false]
      rw [bind_of_ok (current_cons ha)]
      simp [hstart]

/-- Between boundaries a token is skipped. -/
theorem skipRound_inside (hb : s.before = t :: before) (ha : s.after = u :: rest)
    (h : ¬ Boundary t u) : (skipRound ()).run s = .ok (.again ()) (s.pass [u] []) := by
  have hu : u.isEnd = false := by
    cases hu : u.isEnd with
    | true => exact absurd (Or.inl hu) h
    | false => rfl
  have ht : t.kind ≠ .semicolon := fun ht => h (Or.inr (Or.inl ht))
  have hstart : startsStatement u.kind = false :=
    Bool.eq_false_iff.mpr fun hs => h (Or.inr (Or.inr hs))
  unfold skipRound
  rw [bind_of_ok (atEnd_cons ha), hu]
  simp only [Bool.false_eq_true, if_false]
  rw [bind_of_ok (previous_cons hb)]
  simp only [beq_iff_eq, ht, if_false]
  rw [bind_of_ok (current_cons ha)]
  simp only [hstart, Bool.false_eq_true, if_false]
  rw [bind_of_ok (advance_cons ha hu)]
  rfl

/-- A round of skipping takes one token, or nothing. -/
theorem skipRound_ok {r : Round Unit Unit} {s' : State} (h : (skipRound ()).run s = .ok r s') :
    (r = .again () ∧ ∃ u, Moved s s' [u] []) ∨ (r = .done () ∧ s' = s) := by
  obtain ⟨ended, s₁, hended, h₁⟩ := bind_eq_ok.mp h
  obtain ⟨rfl, u, rest, hs, rfl⟩ := atEnd_ok hended
  cases hu : u.isEnd with
  | true =>
    rw [hu] at h₁
    cases h₁
    exact Or.inr ⟨rfl, rfl⟩
  | false =>
    rw [hu] at h₁
    obtain ⟨t, s₂, ht, h₂⟩ := bind_eq_ok.mp h₁
    obtain rfl := peek_ok ht
    split at h₂
    · cases h₂
      exact Or.inr ⟨rfl, rfl⟩
    · obtain ⟨v, s₃, hv, h₃⟩ := bind_eq_ok.mp h₂
      obtain ⟨rfl, -⟩ := current_ok hv
      split at h₃
      · cases h₃
        exact Or.inr ⟨rfl, rfl⟩
      · rw [bind_of_ok (advance_cons hs hu)] at h₃
        cases h₃
        exact Or.inl ⟨rfl, u, Moved.pass_one hs hu⟩

/-- A round of recovery passes a token whenever it asks for another. -/
theorem skipRound_advances : Advances skipRound := by
  rintro ⟨⟩ s ⟨⟩ s' h
  rcases skipRound_ok h with ⟨-, u, hm⟩ | ⟨hdone, -⟩
  · rw [hm.after]
    simp
  · cases hdone

/-- The tokens up to the first boundary behind `previous`. -/
def skipFrom (previous : Token) : List Token → List Token
  | [] => []
  | next :: rest => if Boundary previous next then [] else next :: skipFrom next rest

/-- The tokens that recovery skips: none at the end, else the first one in any case. -/
def skippedAt : List Token → List Token
  | [] => []
  | t :: rest => if t.isEnd = true then [] else t :: skipFrom t rest

/-- At the end nothing is skipped. -/
theorem skippedAt_end (rest : List Token) (ht : t.isEnd = true) :
    skippedAt (t :: rest) = [] := by
  simp [skippedAt, ht]

/-- The token of the failure is skipped, even if it begins a statement. -/
theorem skippedAt_cons (rest : List Token) (ht : t.isEnd = false) :
    skippedAt (t :: rest) = t :: skipFrom t rest := by
  simp [skippedAt, ht]

/-- What is skipped reaches the first boundary and does not contain the mark of the end. -/
theorem skipFrom_spec (t : Token) (ts : List Token) (hend : ∃ u ∈ ts, u.isEnd = true) :
    ∃ rest, ts = skipFrom t ts ++ rest ∧ (∀ u ∈ skipFrom t ts, u.isEnd = false) ∧
      UpToBoundary (t :: skipFrom t ts) rest := by
  induction ts generalizing t with
  | nil => simp at hend
  | cons u rest ih =>
    unfold skipFrom
    by_cases h : Boundary t u
    · rw [if_pos h]
      exact ⟨u :: rest, rfl, by simp, .single h rest⟩
    · have hu : u.isEnd = false := Bool.eq_false_iff.mpr fun hu => h (Or.inl hu)
      have hrest : ∃ v ∈ rest, v.isEnd = true := by simpa [hu] using hend
      obtain ⟨beyond, hsplit, hinner, hskip⟩ := ih u hrest
      rw [if_neg h]
      refine ⟨beyond, by rw [List.cons_append, ← hsplit], ?_, .cons h hskip⟩
      simp only [List.mem_cons, forall_eq_or_imp]
      exact ⟨hu, hinner⟩

/-- Recovery does not skip the mark of the end, and stops at the first boundary. -/
theorem skippedAt_spec {ts : List Token} (hend : ∃ u ∈ ts, u.isEnd = true) :
    ∃ rest, ts = skippedAt ts ++ rest ∧ (∀ u ∈ skippedAt ts, u.isEnd = false) ∧
      Skipped (skippedAt ts) rest := by
  cases ts with
  | nil => simp at hend
  | cons t ts =>
    cases ht : t.isEnd with
    | true =>
      rw [skippedAt_end ts ht]
      exact ⟨t :: ts, rfl, by simp, Or.inl ⟨rfl, t, rfl, ht⟩⟩
    | false =>
      have hrest : ∃ v ∈ ts, v.isEnd = true := by simpa [ht] using hend
      obtain ⟨rest, hsplit, hinner, hskip⟩ := skipFrom_spec t ts hrest
      rw [skippedAt_cons ts ht]
      refine ⟨rest, by rw [List.cons_append, ← hsplit], ?_, Or.inr hskip⟩
      simp only [List.mem_cons, forall_eq_or_imp]
      exact ⟨ht, hinner⟩

/-- Skipping goes on to the first boundary. -/
theorem run_skip {ts : List Token} (hb : s.before = t :: before) (ha : s.after = ts)
    (hend : s.HasEnd) :
    (repeated skipRound ()).run s = .ok () (s.pass (skipFrom t ts) []) := by
  induction ts generalizing s t before with
  | nil =>
    obtain ⟨u, hu, -⟩ := hend
    simp [ha] at hu
  | cons u rest ih =>
    unfold skipFrom
    by_cases h : Boundary t u
    · rw [if_pos h, repeated_done (skipRound_boundary hb ha h), State.pass_nil]
    · have hu : u.isEnd = false := Bool.eq_false_iff.mpr fun hu => h (Or.inl hu)
      have hs : (s.pass [u] []).after = rest := State.pass_after_of_append ha []
      rw [if_neg h, repeated_again skipRound_advances (skipRound_inside hb ha h),
        ih rfl hs ((Moved.pass_one ha hu).hasEnd hend), State.pass_pass]
      rfl

/-- Where the mark of the end is still to come, recovery depends on the tokens behind the cursor
only. -/
theorem run_synchronize (hend : s.HasEnd) :
    synchronize.run s = .ok () (s.pass (skippedAt s.after) []) := by
  obtain ⟨t, rest, hs⟩ := hend.exists_cons
  rw [synchronize_eq, hs]
  cases ht : t.isEnd with
  | true =>
    have hround : (skipRound ()).run s = .ok (.done ()) s := by
      unfold skipRound
      rw [bind_of_ok (atEnd_cons hs), ht]
      rfl
    rw [bind_of_ok (advance_end hs ht), repeated_done hround, skippedAt_end rest ht,
      State.pass_nil]
  | false =>
    have hafter : (s.pass [t] []).after = rest := State.pass_after_of_append hs []
    rw [bind_of_ok (advance_cons hs ht), skippedAt_cons rest ht,
      run_skip rfl hafter ((Moved.pass_one hs ht).hasEnd hend), State.pass_pass]
    rfl

/-- Recovery moves forward, and not at all only at the end. -/
theorem synchronize_ok {s' : State} (h : synchronize.run s = .ok () s') :
    ∃ ts, Moved s s' ts [] ∧ (ts = [] → ∃ mark, s.after.head? = some mark ∧ mark.isEnd = true) := by
  rw [synchronize_eq] at h
  obtain ⟨t, s₁, ht, hloop⟩ := bind_eq_ok.mp h
  have hskipped : ∃ us, Moved s₁ s' us [] := by
    refine repeated_invariant skipRound_advances (I := fun _ s₂ => ∃ us, Moved s₁ s₂ us [])
      (J := fun _ s₂ => ∃ us, Moved s₁ s₂ us []) ?_ ?_ hloop ⟨[], Moved.refl s₁⟩
    · rintro ⟨⟩ s₂ ⟨⟩ s₃ hround ⟨us, hus⟩
      rcases skipRound_ok hround with ⟨-, u, hm⟩ | ⟨hdone, -⟩
      · exact ⟨_, hus.trans hm⟩
      · cases hdone
    · rintro ⟨⟩ s₂ ⟨⟩ s₃ hround hus
      rcases skipRound_ok hround with ⟨hagain, -⟩ | ⟨-, rfl⟩
      · cases hagain
      · exact hus
  obtain ⟨us, hus⟩ := hskipped
  cases hs : s.after with
  | nil =>
    unfold advance at ht
    simp [current_nil hs] at ht
  | cons u rest =>
    cases hu : u.isEnd with
    | true =>
      rw [advance_end hs hu] at ht
      cases ht
      exact ⟨us, hus, fun _ => ⟨t, rfl, hu⟩⟩
    | false =>
      rw [advance_cons hs hu] at ht
      cases ht
      exact ⟨t :: us, (Moved.pass_one hs hu).trans hus, fun h => by cases h⟩

end Skipping

section TopLevel

variable {s s₁ : State}

/-- The error of a declaration with too many levels, where `near` is its last token. -/
def heightErrors (stmt : Stmt) (near : Token) : List ParseError :=
  match Outline.firstBeyond maxHeight [⟨stmt.outline, 1, near⟩] with
  | some token => [⟨.tooDeep "expression", token⟩]
  | none => []

/-- The height is checked with the token before the cursor. -/
theorem run_checkHeight_of_previous {t : Token} (h : previous.run s = .ok t s) (stmt : Stmt) :
    (checkHeight stmt).run s = .ok () (s.pass [] (heightErrors stmt t)) := by
  unfold checkHeight heightErrors
  rw [bind_of_ok h]
  cases Outline.firstBeyond maxHeight [⟨stmt.outline, 1, t⟩] with
  | some token => exact run_report _ _ s
  | none =>
    rw [State.pass_nil]
    rfl

/-- The check of a height records its error, if there is one, and moves nothing. -/
theorem run_checkHeight {t : Token} {before : List Token} (h : s.before = t :: before)
    (stmt : Stmt) : (checkHeight stmt).run s = .ok () (s.pass [] (heightErrors stmt t)) :=
  run_checkHeight_of_previous (previous_cons h) stmt

/-- An attempt is a declaration at the level that its state leaves, and the check of its height. -/
theorem run_attempt (s : State) :
    attempt.run s = match (rules s.room).declaration.run s with
      | .ok stmt s' => (checkHeight stmt >>= fun _ => pure (some stmt)).run s'
      | .error e s' => .error e s' := by
  have hhere : (here (·.declaration)).run s = (rules s.room).declaration.run s := rfl
  unfold attempt
  rw [EStateM.run_bind, hhere]
  cases (rules s.room).declaration.run s <;> rfl

/-- A failed attempt is recovered from. -/
theorem run_topLevel (s : State) :
    topLevel.run s = match attempt.run s with
      | .ok stmt s' => .ok stmt s'
      | .error e s' => (recover e).run s' := by
  change EStateM.tryCatch attempt recover s = _
  unfold EStateM.tryCatch EStateM.run
  cases attempt s <;> rfl

/-- The state after a failed declaration: the failure is recorded and no production is open. -/
def State.caught (s : State) (error : ParseError) : State :=
  { s with depth := 0, errors := s.errors.push error }

/-- Recovery records the failure, closes all productions and skips. -/
theorem run_recover (error : ParseError) (s : State) :
    (recover (.rejected error)).run s =
      (synchronize >>= fun _ => pure none).run (s.caught error) := rfl

/-- The last of the tokens that were passed stands before the cursor. -/
theorem Passes.before_of_last {ts : List Token} {es : List ParseError} {last : Token}
    (h : Passes s s₁ ts es) (hlast : ts.getLast? = some last) :
    ∃ before, s₁.before = last :: before := by
  obtain ⟨us, rfl⟩ := List.getLast?_eq_some_iff.mp hlast
  exact ⟨us.reverse ++ s.before, by rw [h.state]; simp⟩

/-- A declaration that is read has a last token. -/
theorem declaration_ok {n : Nat} {stmt : Stmt} (h : (rules n).declaration.run s = .ok stmt s₁) :
    ∃ ts es last, Passes s s₁ ts es ∧ ts.getLast? = some last := by
  obtain ⟨d, -, -, -, hd⟩ := declaration_sound n s stmt s₁ h
  obtain ⟨t, rest, htokens, -⟩ := d.begins id
  have hne : d.tokens ≠ [] := by simp [htokens]
  exact ⟨d.tokens, d.errors, d.tokens.getLast hne, hd, List.getLast?_eq_some_getLast hne⟩

/-- A declaration that is read, with the error of its height. -/
theorem topLevel_parsed {stmt : Stmt} {ts : List Token} {es : List ParseError} {last : Token}
    (h : (rules s.room).declaration.run s = .ok stmt s₁) (hpass : Passes s s₁ ts es)
    (hlast : ts.getLast? = some last) :
    topLevel.run s = .ok (some stmt) (s₁.pass [] (heightErrors stmt last)) := by
  obtain ⟨before, hb⟩ := hpass.before_of_last hlast
  rw [run_topLevel, run_attempt, h]
  simp only []
  rw [bind_of_ok (run_checkHeight hb stmt)]
  rfl

/-- A declaration that fails is recovered from. -/
theorem topLevel_failed {error : ParseError}
    (h : (rules s.room).declaration.run s = .error (.rejected error) s₁) :
    topLevel.run s = (synchronize >>= fun _ => pure none).run (s₁.caught error) := by
  rw [run_topLevel, run_attempt, h]
  exact run_recover error s₁

/-- A declaration that runs out of tokens is not recovered from. -/
theorem topLevel_exhausted (h : (rules s.room).declaration.run s = .error .exhausted s₁) :
    topLevel.run s = .error .exhausted s₁ := by
  rw [run_topLevel, run_attempt, h]
  rfl

/-- A declaration of the top level costs at least one token, whether it is read or skipped. -/
theorem topLevel_ok {s' : State} {o : Option Stmt} {t : Token} {rest : List Token}
    (hs : s.after = t :: rest) (ht : t.isEnd = false) (h : topLevel.run s = .ok o s') :
    ∃ ts, s.after = ts ++ s'.after ∧ ts ≠ [] := by
  have hregular := declaration_regular .alone s.room
  rcases hrun : (rules s.room).declaration.run s with ⟨stmt, s₁⟩ | ⟨error | _, s₁⟩
  · obtain ⟨ts, es, last, hpass, hlast⟩ := declaration_ok hrun
    rw [topLevel_parsed hrun hpass hlast] at h
    cases h
    refine ⟨ts, by simpa using hpass.after, ?_⟩
    rintro rfl
    cases hlast
  · obtain ⟨-, hcursor, ts, es, hm⟩ := hregular.rejected hrun
    rw [topLevel_failed hrun] at h
    obtain ⟨⟨⟩, s₂, hsync, hdone⟩ := bind_eq_ok.mp h
    cases hdone
    obtain ⟨us, hm', hus⟩ := synchronize_ok hsync
    have hafter : s₁.after = us ++ s'.after := hm'.after
    refine ⟨ts ++ us, by rw [hm.after, hafter, List.append_assoc], ?_⟩
    -- A failure at the end has passed a token before, because the first token is none.
    intro hnil
    obtain ⟨rfl, rfl⟩ := List.append_eq_nil_iff.mp hnil
    obtain ⟨mark, hmark, hend⟩ := hus rfl
    have hhead : s₁.after = t :: rest := by rw [← hs, hm.after]; rfl
    change s₁.after.head? = some mark at hmark
    rw [hhead] at hmark
    obtain rfl := Option.some.inj hmark
    simp [ht] at hend
  · rw [topLevel_exhausted hrun] at h
    cases h

end TopLevel

/-- What one round of the loop over the top level covers: its tokens, the errors it records and
the declaration, if there is one. -/
structure Segment where
  tokens : List Token
  errors : List ParseError
  stmt : Option Stmt

/-- One round of the loop, from `s`: a declaration is read, or fails and is skipped. -/
inductive Attempt (s : State) : Segment → State → Prop
  | parsed {stmt : Stmt} {s₁ : State} {ts : List Token} {es : List ParseError} {last : Token}
      (run : (rules s.room).declaration.run s = .ok stmt s₁) (passes : Passes s s₁ ts es)
      (isLast : ts.getLast? = some last) :
      Attempt s ⟨ts, es ++ heightErrors stmt last, some stmt⟩
        (s₁.pass [] (heightErrors stmt last))
  | failed {error : ParseError} {s₁ : State} {ts skipped rest : List Token}
      {es : List ParseError}
      (run : (rules s.room).declaration.run s = .error (.rejected error) s₁)
      (moved : Moved s s₁ ts es) (cursor : s₁.after.head? = some error.token)
      (split : s₁.after = skipped ++ rest) (inner : ∀ t ∈ skipped, t.isEnd = false)
      (skips : Skipped skipped rest)
      (recovers : synchronize.run (s₁.caught error) = .ok () ((s₁.caught error).pass skipped [])) :
      Attempt s ⟨ts ++ skipped, es ++ [error], none⟩ ((s₁.caught error).pass skipped [])

/-- The rounds of the loop from `s` up to the mark of the end. -/
inductive Runs : State → List Segment → State → Prop
  | ended {s : State} {mark : Token} {rest : List Token} (h : s.after = mark :: rest)
      (isEnd : mark.isEnd = true) : Runs s [] s
  | step {s s₁ s' : State} {t : Token} {rest : List Token} {g : Segment} {gs : List Segment}
      (h : s.after = t :: rest) (notEnd : t.isEnd = false) (first : Attempt s g s₁)
      (others : Runs s₁ gs s') : Runs s (g :: gs) s'

section Loop

/-- One more declaration of the top level. -/
def topRound (stmts : Array Stmt) : Parse (Round (Array Stmt) Program) := do
  if ← atEnd then return .done stmts.toList
  match ← topLevel with
  | some stmt => return .again (stmts.push stmt)
  | none => return .again stmts

/-- The loop over the top level is rounds of declarations. -/
theorem declarations_eq : declarations = repeated topRound #[] := rfl

variable {s s' : State} {g : Segment} {gs : List Segment}

/-- A round ends the loop at the mark of the end, and only there. -/
theorem topRound_ok {stmts : Array Stmt} {r : Round (Array Stmt) Program}
    (h : (topRound stmts).run s = .ok r s') :
    (r = .done stmts.toList ∧ s' = s ∧ s.HasEnd) ∨
      (∃ next, r = .again next ∧ ∃ ts, s.after = ts ++ s'.after ∧ ts ≠ []) := by
  obtain ⟨ended, s₁, hended, h₁⟩ := bind_eq_ok.mp h
  obtain ⟨rfl, t, rest, hs, rfl⟩ := atEnd_ok hended
  cases ht : t.isEnd with
  | true =>
    rw [ht] at h₁
    cases h₁
    exact Or.inl ⟨rfl, rfl, t, by simp [hs], ht⟩
  | false =>
    rw [ht] at h₁
    obtain ⟨o, s₂, hstmt, h₂⟩ := bind_eq_ok.mp h₁
    obtain ⟨ts, hts, hne⟩ := topLevel_ok hs ht hstmt
    cases o <;> cases h₂ <;> exact Or.inr ⟨_, rfl, ts, hts, hne⟩

/-- A round of the top level passes a token whenever it asks for another. -/
theorem topRound_advances : Advances topRound := by
  intro stmts s next s' h
  rcases topRound_ok h with ⟨hdone, -⟩ | ⟨next', -, ts, hts, hne⟩
  · cases hdone
  · rw [hts, List.length_append]
    have := List.length_pos_iff.mpr hne
    omega

/-- A loop that comes to an answer has found the mark of the end. -/
theorem hasEnd_of_declarations {program : Program} (h : declarations.run s = .ok program s') :
    s.HasEnd := by
  rw [declarations_eq] at h
  refine repeated_induction topRound_advances
    (motive := fun _ s r => (∃ program s', r = .ok program s') → s.HasEnd) ?_ ?_ ?_ #[] s ⟨_, _, h⟩
  · intro stmts s₁ next s₂ hround ih hr
    rcases topRound_ok hround with ⟨hdone, -⟩ | ⟨next', -, ts, hts, -⟩
    · cases hdone
    · obtain ⟨t, ht, hend⟩ := ih hr
      exact ⟨t, hts ▸ List.mem_append_right _ ht, hend⟩
  · intro stmts s₁ answer s₂ hround _
    rcases topRound_ok hround with ⟨-, -, hend⟩ | ⟨next', hagain, -⟩
    · exact hend
    · cases hagain
  · rintro stmts s₁ e s₂ - ⟨program, s', hr⟩
    cases hr

/-- An attempt is what the program does. -/
theorem Attempt.run_eq (h : Attempt s g s') : topLevel.run s = .ok g.stmt s' := by
  cases h with
  | parsed run passes isLast => exact topLevel_parsed run passes isLast
  | failed run moved cursor split inner skips recovers =>
    rw [topLevel_failed run, bind_of_ok recovers]
    rfl

/-- Where the mark of the end is still to come, a round makes its attempt. -/
theorem exists_attempt (hend : s.HasEnd) : ∃ g s', Attempt s g s' := by
  have hregular := declaration_regular .alone s.room
  rcases hrun : (rules s.room).declaration.run s with ⟨stmt, s₁⟩ | ⟨error | _, s₁⟩
  · obtain ⟨ts, es, last, hpass, hlast⟩ := declaration_ok hrun
    exact ⟨_, _, .parsed hrun hpass hlast⟩
  · obtain ⟨-, hcursor, ts, es, hm⟩ := hregular.rejected hrun
    have hend₁ := hm.hasEnd hend
    obtain ⟨rest, hsplit, hinner, hskips⟩ := skippedAt_spec hend₁
    have hrecovers := run_synchronize (s := s₁.caught error) hend₁
    exact ⟨_, _, .failed hrun hm hcursor hsplit hinner hskips hrecovers⟩
  · obtain ⟨hnil, ts, es, hm⟩ := hregular.exhausted hrun
    obtain ⟨t, ht, -⟩ := hm.hasEnd hend
    simp [hnil] at ht

namespace Attempt

/-- An attempt passes the tokens of its segment. -/
theorem after (h : Attempt s g s') : s.after = g.tokens ++ s'.after := by
  cases h with
  | parsed run passes isLast => simpa using passes.after
  | @failed error s₁ ts skipped rest es run moved cursor split inner skips recovers =>
    have hrest : ((s₁.caught error).pass skipped []).after = rest :=
      State.pass_after_of_append split []
    rw [hrest, moved.after, split, List.append_assoc]

/-- An attempt records the errors of its segment. -/
theorem errors (h : Attempt s g s') : s'.errors = s.errors ++ g.errors.toArray := by
  cases h with
  | parsed run passes isLast =>
    rw [State.pass_errors, passes.state]
    simp
  | failed run moved cursor split inner skips recovers =>
    rw [State.pass_errors, State.caught, moved.errors]
    simp

/-- The mark of the end belongs to no segment. -/
theorem inner (h : Attempt s g s') : ∀ t ∈ g.tokens, t.isEnd = false := by
  cases h with
  | parsed run passes isLast =>
    obtain ⟨-, us, fs, hm⟩ := (declaration_regular .alone s.room).ok run
    have hsame : us ++ _ = _ ++ _ := hm.after.symm.trans passes.after
    obtain rfl := List.append_cancel_right hsame
    exact hm.inner
  | failed run moved cursor split inner skips recovers =>
    intro t ht
    rcases List.mem_append.mp ht with ht | ht
    · exact moved.inner t ht
    · exact inner t ht

/-- An attempt does not pass the mark of the end. -/
theorem hasEnd (h : Attempt s g s') (hs : s.HasEnd) : s'.HasEnd := by
  obtain ⟨t, ht, hend⟩ := hs
  rw [h.after] at ht
  rcases List.mem_append.mp ht with ht | ht
  · simp [h.inner t ht] at hend
  · exact ⟨t, ht, hend⟩

/-- Whatever happens, no production is left open. -/
theorem depth (h : Attempt s g s') (hs : s.depth = 0) : s'.depth = 0 := by
  cases h with
  | parsed run passes isLast =>
    rw [State.pass_depth, passes.state]
    exact hs
  | failed run moved cursor split inner skips recovers => rfl

end Attempt

/-- The rounds of a run are what the loop does. -/
theorem Runs.run_eq (h : Runs s gs s') (stmts : Array Stmt) :
    (repeated topRound stmts).run s = .ok (stmts.toList ++ gs.filterMap (·.stmt)) s' := by
  induction h generalizing stmts with
  | @ended s mark rest hs hend =>
    have hround : (topRound stmts).run s = .ok (.done stmts.toList) s := by
      unfold topRound
      rw [bind_of_ok (atEnd_cons hs), hend]
      rfl
    rw [repeated_done hround]
    simp
  | @step s s₁ s' t rest g gs hs hend first others ih =>
    have hround : (topRound stmts).run s =
        .ok (.again (g.stmt.elim stmts stmts.push)) s₁ := by
      unfold topRound
      rw [bind_of_ok (atEnd_cons hs), hend]
      simp only [Bool.false_eq_true, if_false]
      rw [bind_of_ok first.run_eq]
      cases g.stmt <;> rfl
    rw [repeated_again topRound_advances hround, ih]
    cases hstmt : g.stmt <;> simp [hstmt]

/-- Every token list with a mark of the end has its run. -/
theorem exists_runs (s : State) (hend : s.HasEnd) : ∃ gs s', Runs s gs s' := by
  induction hn : s.after.length using Nat.strongRecOn generalizing s with
  | _ n ih =>
    obtain ⟨t, rest, hs⟩ := hend.exists_cons
    cases ht : t.isEnd with
    | true => exact ⟨[], s, .ended hs ht⟩
    | false =>
      obtain ⟨g, s₁, hfirst⟩ := exists_attempt hend
      obtain ⟨ts, hts, hne⟩ := topLevel_ok hs ht hfirst.run_eq
      have hlt : s₁.after.length < n := by
        rw [← hn, hts, List.length_append]
        have := List.length_pos_iff.mpr hne
        omega
      obtain ⟨gs, s', hothers⟩ := ih _ hlt s₁ (hfirst.hasEnd hend) rfl
      exact ⟨g :: gs, s', .step hs ht hfirst hothers⟩

namespace Runs

/-- A run passes the tokens of its segments up to the mark of the end. -/
theorem after (h : Runs s gs s') : s.after = gs.flatMap (·.tokens) ++ s'.after := by
  induction h with
  | ended => rfl
  | step hs hend first others ih =>
    rw [first.after, ih, List.flatMap_cons, List.append_assoc]

/-- A run records the errors of its segments. -/
theorem errors (h : Runs s gs s') :
    s'.errors = s.errors ++ (gs.flatMap (·.errors)).toArray := by
  induction h with
  | ended => simp
  | step hs hend first others ih =>
    rw [ih, first.errors]
    simp

/-- A run ends at the mark of the end. -/
theorem atMark (h : Runs s gs s') : ∃ mark rest, s'.after = mark :: rest ∧ mark.isEnd = true := by
  induction h with
  | ended hs hend => exact ⟨_, _, hs, hend⟩
  | step hs hend first others ih => exact ih

end Runs

/-- A program whose loop has run gives its first error, if there is one. -/
theorem run_program (h : Runs s gs s') :
    program.run s = match s'.errors[0]? with
      | some error => .error (.rejected error) s'
      | none => .ok (gs.filterMap (·.stmt)) s' := by
  have hrun : declarations.run s = .ok (gs.filterMap (·.stmt)) s' := by
    rw [declarations_eq, h.run_eq]
    rfl
  unfold program
  rw [bind_of_ok hrun, bind_of_ok (EStateM.run_get s')]
  cases s'.errors[0]? <;> rfl

/-- The errors of a program are those of its segments. -/
theorem diagnose_of_runs {tokens : List Token} (h : Runs (.start tokens) gs s') :
    diagnose tokens = gs.flatMap (·.errors) := by
  have herrors : s'.errors.toList = gs.flatMap (·.errors) := by
    rw [h.errors]
    simp [State.start]
  unfold diagnose
  rw [run_program h, ← herrors]
  cases s'.errors[0]? <;> rfl

/-- A program is the list of its declarations if no segment has an error, else its first error
is the answer. -/
theorem parse_of_runs {tokens : List Token} (h : Runs (.start tokens) gs s') :
    parse tokens = match gs.flatMap (·.errors) with
      | [] => .ok (gs.filterMap (·.stmt))
      | error :: _ => .error (.rejected error) := by
  have herrors : s'.errors[0]? = (gs.flatMap (·.errors))[0]? := by
    rw [h.errors]
    simp [State.start]
  unfold parse
  rw [run_program h, herrors]
  cases gs.flatMap (·.errors) <;> rfl

end Loop

end Moonbridge.Parser
