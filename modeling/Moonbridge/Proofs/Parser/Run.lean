import Moonbridge.Parser.Statement

/-!
# Runs of productions

A run of a production is opened into the runs of its parts: the two ways in which a sequence
ends, the answer of each way of looking at the token at the cursor, and the rounds of a loop.
A loop whose rounds move the cursor satisfies its own equation, so that the bound under which
it is defined never shows.
-/

namespace Moonbridge.Parser

section Sequences

variable {α β : Type} {p : Parse α} {f : α → Parse β} {s s' : State}

/-- A sequence answers when both parts do. -/
theorem bind_eq_ok {b : β} :
    (p >>= f).run s = .ok b s' ↔ ∃ a s₁, p.run s = .ok a s₁ ∧ (f a).run s₁ = .ok b s' := by
  rw [EStateM.run_bind]
  constructor
  · intro h
    cases hp : p.run s with
    | ok a s₁ => exact ⟨a, s₁, rfl, by simpa [hp] using h⟩
    | error e s₁ => simp [hp] at h
  · rintro ⟨a, s₁, hp, hf⟩
    rw [hp]
    exact hf

/-- A sequence fails in its first part or in its second part. -/
theorem bind_eq_error {e : Failure} :
    (p >>= f).run s = .error e s' ↔ p.run s = .error e s' ∨
      ∃ a s₁, p.run s = .ok a s₁ ∧ (f a).run s₁ = .error e s' := by
  rw [EStateM.run_bind]
  constructor
  · intro h
    cases hp : p.run s with
    | ok a s₁ => exact Or.inr ⟨a, s₁, rfl, by simpa [hp] using h⟩
    | error e s₁ => exact Or.inl (by simpa [hp] using h)
  · rintro (hp | ⟨a, s₁, hp, hf⟩)
    · rw [hp]
    · rw [hp]
      exact hf

/-- A sequence whose first part answers goes on with the second part. -/
theorem bind_of_ok {a : α} {s₁ : State} (h : p.run s = .ok a s₁) :
    (p >>= f).run s = (f a).run s₁ := by
  rw [EStateM.run_bind, h]

@[simp] theorem run_fail (e : Failure) (s : State) :
    (throw e : Parse α).run s = .error e s := rfl

/-- An answer that is not used does not change a run. -/
theorem discard_bind (p : Parse α) (f : Unit → Parse β) :
    (discard p >>= f) = (p >>= fun _ => f ()) := by
  funext s
  simp only [bind, EStateM.bind, discard, Functor.discard, Functor.mapConst, Function.comp_apply,
    EStateM.map]
  cases p s <;> rfl

end Sequences

namespace State

/-- The state behind `ts`, with `es` recorded and as many productions open as before. -/
def pass (s : State) (ts : List Token) (es : List ParseError) : State where
  before := ts.reverse ++ s.before
  after := s.after.drop ts.length
  depth := s.depth
  errors := s.errors ++ es.toArray

@[simp] theorem pass_before (s : State) (ts : List Token) (es : List ParseError) :
    (s.pass ts es).before = ts.reverse ++ s.before := rfl

@[simp] theorem pass_after (s : State) (ts : List Token) (es : List ParseError) :
    (s.pass ts es).after = s.after.drop ts.length := rfl

@[simp] theorem pass_depth (s : State) (ts : List Token) (es : List ParseError) :
    (s.pass ts es).depth = s.depth := rfl

@[simp] theorem pass_errors (s : State) (ts : List Token) (es : List ParseError) :
    (s.pass ts es).errors = s.errors ++ es.toArray := rfl

@[simp] theorem pass_nil (s : State) : s.pass [] [] = s := by
  simp [pass]

/-- Passing over two pieces is passing over both at once. -/
@[simp] theorem pass_pass (s : State) (ts us : List Token) (es fs : List ParseError) :
    (s.pass ts es).pass us fs = s.pass (ts ++ us) (es ++ fs) := by
  simp [pass]

/-- The tokens behind a piece that stands at the cursor. -/
theorem pass_after_of_append {s : State} {ts rest : List Token} (h : s.after = ts ++ rest)
    (es : List ParseError) : (s.pass ts es).after = rest := by
  rw [pass_after, h, List.drop_left]

end State

section Cursor

variable {s : State} {t : Token} {rest : List Token}

/-- Recording an error leaves the cursor where it is. -/
theorem run_report (t : Token) (problem : Problem) (s : State) :
    (report t problem).run s = .ok () (s.pass [] [⟨problem, t⟩]) := by
  simp [report, State.pass]

/-- To look at the token at the cursor fails behind the last one only. -/
theorem run_current (s : State) :
    current.run s = match s.after with
      | [] => .error .exhausted s
      | t :: _ => .ok t s := by
  obtain ⟨before, after, depth, errors⟩ := s
  cases after <;> rfl

theorem current_cons (h : s.after = t :: rest) : current.run s = .ok t s := by
  rw [run_current, h]

theorem current_nil (h : s.after = []) : current.run s = .error .exhausted s := by
  rw [run_current, h]

/-- A token that is no mark of the end is passed. -/
theorem advance_cons (h : s.after = t :: rest) (ht : t.isEnd = false) :
    advance.run s = .ok t (s.pass [t] []) := by
  unfold advance
  rw [bind_of_ok (current_cons h)]
  simp only [ht, Bool.false_eq_true, if_false]
  rw [EStateM.run_bind, EStateM.run_modify]
  simp [State.pass]

/-- The mark of the end is not passed. -/
theorem advance_end (h : s.after = t :: rest) (ht : t.isEnd = true) :
    advance.run s = .ok t s := by
  unfold advance
  rw [bind_of_ok (current_cons h)]
  simp [ht]

/-- In front of a token its kind is compared. -/
theorem looksAt_cons (h : s.after = t :: rest) (k : Kind) :
    (looksAt k).run s = .ok (t.kind == k) s := by
  unfold looksAt
  rw [bind_of_ok (current_cons h)]
  rfl

/-- In front of a token it is asked whether it is the mark of the end. -/
theorem atEnd_cons (h : s.after = t :: rest) : atEnd.run s = .ok t.isEnd s := by
  unfold atEnd
  rw [bind_of_ok (current_cons h)]
  rfl

/-- A token of the wanted kind is taken. -/
theorem accept_of_kind {k : Kind} (h : s.after = t :: rest) (hk : t.kind = k)
    (hend : k ≠ .endOfInput) : (accept k).run s = .ok (some t) (s.pass [t] []) := by
  have ht : t.isEnd = false := by simp [Token.isEnd, hk, hend]
  unfold accept
  rw [bind_of_ok (looksAt_cons h k)]
  simp only [hk, beq_self_eq_true, if_true]
  rw [bind_of_ok (advance_cons h ht)]
  rfl

/-- A token of another kind is left where it is. -/
theorem accept_of_ne {k : Kind} (h : s.after = t :: rest) (hk : t.kind ≠ k) :
    (accept k).run s = .ok none s := by
  unfold accept
  rw [bind_of_ok (looksAt_cons h k)]
  simp [hk]

/-- An expected token is passed. -/
theorem expect_of_kind {k : Kind} {problem : Problem} (h : s.after = t :: rest)
    (hk : t.kind = k) (hend : k ≠ .endOfInput) :
    (expect k problem).run s = .ok t (s.pass [t] []) := by
  unfold expect
  rw [bind_of_ok (accept_of_kind h hk hend)]
  rfl

/-- The operator that a token denotes keeps the token. -/
theorem token_of_ofToken? {op : Operator} (h : Operator.ofToken? t = some op) :
    op.token = t := by
  unfold Operator.ofToken? at h
  split at h
  · cases h
    rfl
  · cases h

/-- An operator is read back from its token. -/
theorem ofToken?_token (op : Operator) : Operator.ofToken? op.token = some op := by
  obtain ⟨t, op, hop⟩ := op
  unfold Operator.ofToken?
  split
  · rename_i op' h
    simp only [hop, BinaryOp.ofKind?_kind, Option.some.injEq] at h
    subst h
    rfl
  · rename_i h
    simp [hop] at h

/-- No operator is the mark of the end. -/
theorem isEnd_operator (op : Operator) : op.token.isEnd = false := by
  rw [Token.isEnd, op.kind_eq]
  cases op.op <;> rfl

/-- An operator of the wanted ones is taken. -/
theorem acceptOperator_of_mem {ops : List BinaryOp} {op : Operator}
    (h : s.after = op.token :: rest) (hop : op.op ∈ ops) :
    (acceptOperator ops).run s = .ok (some op) (s.pass [op.token] []) := by
  unfold acceptOperator
  rw [bind_of_ok (current_cons h), ofToken?_token]
  simp only [hop, if_true, discard_bind]
  rw [bind_of_ok (advance_cons h (isEnd_operator op))]
  rfl

/-- A token that is none of the wanted operators is left where it is. -/
theorem acceptOperator_of_not_mem {ops : List BinaryOp} (h : s.after = t :: rest)
    (hop : ∀ op, Operator.ofToken? t = some op → op.op ∉ ops) :
    (acceptOperator ops).run s = .ok none s := by
  unfold acceptOperator
  rw [bind_of_ok (current_cons h)]
  cases ho : Operator.ofToken? t with
  | none => rfl
  | some op => simp [hop op ho]

end Cursor

/-- `s'` is `s` behind `ts`, which stand at its cursor, with `es` recorded. -/
structure Passes (s s' : State) (ts : List Token) (es : List ParseError) : Prop where
  after : s.after = ts ++ s'.after
  state : s' = s.pass ts es

namespace Passes

variable {s s₁ s' : State} {ts us : List Token} {es fs : List ParseError}

theorem refl (s : State) : Passes s s [] [] := ⟨rfl, s.pass_nil.symm⟩

theorem trans (h : Passes s s₁ ts es) (h' : Passes s₁ s' us fs) :
    Passes s s' (ts ++ us) (es ++ fs) := by
  refine ⟨?_, ?_⟩
  · rw [h.after, h'.after, List.append_assoc]
  · rw [h'.state, h.state, State.pass_pass]

/-- Two states determine what was passed and recorded between them. -/
theorem unique (h : Passes s s' ts es) (h' : Passes s s' us fs) : ts = us ∧ es = fs := by
  refine ⟨List.append_cancel_right (h.after.symm.trans h'.after), ?_⟩
  have herrors := congrArg (·.errors.toList) (h.state.symm.trans h'.state)
  simpa using herrors

end Passes

section Answers

variable {s s' : State} {k : Kind}

/-- To see a token changes nothing, and it stands at the cursor. -/
theorem current_ok {t : Token} (h : current.run s = .ok t s') :
    s' = s ∧ ∃ rest, s.after = t :: rest := by
  cases hs : s.after with
  | nil => rw [current_nil hs] at h; cases h
  | cons u rest =>
    rw [current_cons hs] at h
    cases h
    exact ⟨rfl, rest, rfl⟩

/-- Looking ahead or back does not move the cursor. -/
theorem peek_ok {offset : Int} {t : Token} (h : (peek offset).run s = .ok t s') : s' = s := by
  obtain ⟨s₁, s₂, hget, h⟩ := bind_eq_ok.mp h
  cases hget
  simp only [] at h
  split at h
  · cases h
    rfl
  · cases h

/-- An answer about the token at the cursor leaves the cursor where it is. -/
theorem looksAt_ok {b : Bool} (h : (looksAt k).run s = .ok b s') :
    s' = s ∧ ∃ t rest, s.after = t :: rest ∧ b = (t.kind == k) := by
  obtain ⟨t, s₁, ht, hb⟩ := bind_eq_ok.mp h
  obtain ⟨rfl, rest, hs⟩ := current_ok ht
  cases hb
  exact ⟨rfl, t, rest, hs, rfl⟩

/-- To look for the end changes nothing, and needs a token at the cursor. -/
theorem atEnd_ok {b : Bool} (h : atEnd.run s = .ok b s') :
    s' = s ∧ ∃ t rest, s.after = t :: rest ∧ b = t.isEnd := by
  obtain ⟨t, s₁, ht, hb⟩ := bind_eq_ok.mp h
  obtain ⟨rfl, rest, hs⟩ := current_ok ht
  cases hb
  exact ⟨rfl, t, rest, hs, rfl⟩

/-- A kind of token is accepted by passing a token of that kind, and only by that. -/
theorem accept_ok {o : Option Token} (hk : k ≠ .endOfInput)
    (h : (accept k).run s = .ok o s') :
    (∃ t, o = some t ∧ t.kind = k ∧ Passes s s' [t] []) ∨
      (o = none ∧ s' = s ∧ ∃ t rest, s.after = t :: rest ∧ t.kind ≠ k) := by
  cases hs : s.after with
  | nil =>
    unfold accept looksAt at h
    simp [current_nil hs] at h
  | cons t rest =>
    by_cases ht : t.kind = k
    · rw [accept_of_kind hs ht hk] at h
      cases h
      exact Or.inl ⟨t, rfl, ht, by simp [hs], rfl⟩
    · rw [accept_of_ne hs ht] at h
      cases h
      exact Or.inr ⟨rfl, rfl, t, rest, rfl, ht⟩

/-- An expected token that is found has its kind and is passed. -/
theorem expect_ok {problem : Problem} {t : Token} (hk : k ≠ .endOfInput)
    (h : (expect k problem).run s = .ok t s') : t.kind = k ∧ Passes s s' [t] [] := by
  obtain ⟨o, s₁, ho, hrest⟩ := bind_eq_ok.mp h
  rcases accept_ok hk ho with ⟨u, rfl, hu, hp⟩ | ⟨rfl, -, -⟩
  · cases hrest
    exact ⟨hu, hp⟩
  · obtain ⟨u, s₂, -, hfail⟩ := bind_eq_ok.mp hrest
    cases hfail

/-- An operator is accepted by passing its token. -/
theorem acceptOperator_ok {ops : List BinaryOp} {o : Option Operator}
    (h : (acceptOperator ops).run s = .ok o s') :
    (∃ op, o = some op ∧ op.op ∈ ops ∧ Passes s s' [op.token] []) ∨ (o = none ∧ s' = s) := by
  cases hs : s.after with
  | nil =>
    unfold acceptOperator at h
    simp [current_nil hs] at h
  | cons t rest =>
    by_cases ht : ∃ op, Operator.ofToken? t = some op ∧ op.op ∈ ops
    · obtain ⟨op, ho, hop⟩ := ht
      obtain rfl := token_of_ofToken? ho
      rw [acceptOperator_of_mem hs hop] at h
      cases h
      exact Or.inl ⟨op, rfl, hop, by simp [hs], rfl⟩
    · rw [acceptOperator_of_not_mem hs fun op ho hop => ht ⟨op, ho, hop⟩] at h
      cases h
      exact Or.inr ⟨rfl, rfl⟩

/-- A production behind an expected token answers when the token is there. -/
theorem expect_bind_ok {β : Type} {problem : Problem} {f : Token → Parse β} {b : β}
    (hk : k ≠ .endOfInput) (h : (expect k problem >>= f).run s = .ok b s') :
    ∃ t s₁, t.kind = k ∧ Passes s s₁ [t] [] ∧ (f t).run s₁ = .ok b s' := by
  obtain ⟨t, s₁, ht, hrest⟩ := bind_eq_ok.mp h
  obtain ⟨htk, hpass⟩ := expect_ok hk ht
  exact ⟨t, s₁, htk, hpass, hrest⟩

/-- Where the token at the cursor decides, the answer is that of the side it chooses. -/
theorem ifAccepted_ok {β : Type} {p q : Parse β} {b : β} (hk : k ≠ .endOfInput)
    (h : (accept k >>= fun o => if o.isSome = true then p else q).run s = .ok b s') :
    (∃ t s₁, t.kind = k ∧ Passes s s₁ [t] [] ∧ p.run s₁ = .ok b s') ∨
      (q.run s = .ok b s' ∧ ∃ t rest, s.after = t :: rest ∧ t.kind ≠ k) := by
  obtain ⟨o, s₁, ho, hrest⟩ := bind_eq_ok.mp h
  rcases accept_ok hk ho with ⟨t, rfl, ht, hpass⟩ | ⟨rfl, rfl, hne⟩
  · exact Or.inl ⟨t, s₁, ht, hpass, hrest⟩
  · exact Or.inr ⟨hrest, hne⟩

/-- Looking at the token at the cursor chooses a side and takes nothing. -/
theorem ifLooksAt_ok {β : Type} {p q : Parse β} {b : β}
    (h : (looksAt k >>= fun found => if found = true then p else q).run s = .ok b s') :
    p.run s = .ok b s' ∨ q.run s = .ok b s' := by
  obtain ⟨found, s₁, hfound, hrest⟩ := bind_eq_ok.mp h
  obtain ⟨rfl, t, rest, -, -⟩ := looksAt_ok hfound
  split at hrest
  · exact Or.inl hrest
  · exact Or.inr hrest

end Answers

section Loops

variable {α β : Type} {round : α → Parse (Round α β)}

/-- Every round that asks for another one has moved the cursor. -/
def Advances (round : α → Parse (Round α β)) : Prop :=
  ∀ a s a' s', (round a).run s = .ok (.again a') s' → s'.after.length < s.after.length

private theorem rounds_eq_of_le (h : Advances round) (bound bound' : List Token) (a : α)
    (s : State) (hb : s.after.length ≤ bound.length) (hb' : s.after.length ≤ bound'.length) :
    (rounds round bound a).run s = (rounds round bound' a).run s := by
  induction bound generalizing bound' a s with
  | nil =>
    cases bound' with
    | nil => rfl
    | cons u bound' =>
      simp only [rounds, EStateM.run_bind]
      rcases hr : (round a).run s with ⟨a' | b, s'⟩ | ⟨e, s'⟩
      · have := h a s a' s' hr
        simp only [List.length_nil] at hb
        omega
      · rfl
      · rfl
  | cons u bound ih =>
    cases bound' with
    | nil =>
      simp only [rounds, EStateM.run_bind]
      rcases hr : (round a).run s with ⟨a' | b, s'⟩ | ⟨e, s'⟩
      · have := h a s a' s' hr
        simp only [List.length_nil] at hb'
        omega
      · rfl
      · rfl
    | cons u' bound' =>
      simp only [rounds, EStateM.run_bind]
      rcases hr : (round a).run s with ⟨a' | b, s'⟩ | ⟨e, s'⟩
      · have := h a s a' s' hr
        simp only [List.length_cons] at hb hb'
        exact ih bound' a' s' (by omega) (by omega)
      · rfl
      · rfl

private theorem repeated_run (a : α) (s : State) :
    (repeated round a).run s = (rounds round s.after a).run s := rfl

/-- A loop with another round to go runs on from where the round stopped. -/
theorem repeated_again (h : Advances round) {a a' : α} {s s' : State}
    (hr : (round a).run s = .ok (.again a') s') :
    (repeated round a).run s = (repeated round a').run s' := by
  have hlt := h a s a' s' hr
  rw [repeated_run, repeated_run]
  cases hs : s.after with
  | nil => simp [hs] at hlt
  | cons t rest =>
    rw [rounds, bind_of_ok hr]
    simp only [hs, List.length_cons] at hlt
    exact rounds_eq_of_le h rest s'.after a' s' (by omega) (Nat.le_refl _)

/-- A round with the answer ends a loop. -/
theorem repeated_done {a : α} {b : β} {s s' : State}
    (hr : (round a).run s = .ok (.done b) s') : (repeated round a).run s = .ok b s' := by
  rw [repeated_run]
  cases s.after with
  | nil =>
    rw [rounds, bind_of_ok hr]
    rfl
  | cons t rest =>
    rw [rounds, bind_of_ok hr]
    rfl

/-- A round that fails ends a loop. -/
theorem repeated_error {a : α} {e : Failure} {s s' : State}
    (hr : (round a).run s = .error e s') : (repeated round a).run s = .error e s' := by
  rw [repeated_run]
  cases s.after with
  | nil => rw [rounds, bind_eq_error]; exact Or.inl hr
  | cons t rest => rw [rounds, bind_eq_error]; exact Or.inl hr

/-- What holds at the end of a loop and is carried back over each round holds of the whole
loop. The induction is on the tokens behind the cursor. -/
theorem repeated_induction (h : Advances round)
    {motive : α → State → EStateM.Result Failure State β → Prop}
    (again : ∀ a s a' s', (round a).run s = .ok (.again a') s' →
      motive a' s' ((repeated round a').run s') → motive a s ((repeated round a').run s'))
    (done : ∀ a s b s', (round a).run s = .ok (.done b) s' → motive a s (.ok b s'))
    (error : ∀ a s e s', (round a).run s = .error e s' → motive a s (.error e s'))
    (a : α) (s : State) : motive a s ((repeated round a).run s) := by
  induction hn : s.after.length using Nat.strongRecOn generalizing a s with
  | _ n ih =>
    rcases hr : (round a).run s with ⟨a' | b, s'⟩ | ⟨e, s'⟩
    · rw [repeated_again h hr]
      exact again a s a' s' hr (ih _ (hn ▸ h a s a' s' hr) a' s' rfl)
    · rw [repeated_done hr]
      exact done a s b s' hr
    · rw [repeated_error hr]
      exact error a s e s' hr

/-- An invariant of the rounds of a loop holds when the loop answers. -/
theorem repeated_invariant (h : Advances round) {I : α → State → Prop} {J : β → State → Prop}
    (again : ∀ a s a' s', (round a).run s = .ok (.again a') s' → I a s → I a' s')
    (done : ∀ a s b s', (round a).run s = .ok (.done b) s' → I a s → J b s')
    {a : α} {b : β} {s s' : State} (hr : (repeated round a).run s = .ok b s') (ha : I a s) :
    J b s' := by
  refine repeated_induction h
    (motive := fun a s r => r = .ok b s' → I a s → J b s') ?_ ?_ ?_ a s hr ha
  · intro a s a' s' hround ih hr ha
    exact ih hr (again a s a' s' hround ha)
  · intro a s b' s₁ hround hr ha
    cases hr
    exact done a s b s' hround ha
  · intro a s e s₁ _ hr
    cases hr

end Loops

end Moonbridge.Parser
