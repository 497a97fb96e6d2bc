import Moonbridge.Proofs.Parser.Run
import Moonbridge.Proofs.Tree.Relabel

/-!
# What a production may do to the state

A production only moves forward, never over the mark of the end, and only adds to the
recorded errors; what it records is located at a token it has passed or at the cursor. When it
answers, as many productions are open as before and a token has been passed; when it fails, the
failure is located at the cursor. The law is proved for each production from the law of the
productions it refers to, and for all levels by induction on the room that is left.
-/

namespace Moonbridge.Parser

/-- `s'` is reached from `s` by passing `ts` and recording `es`. -/
structure Moved (s s' : State) (ts : List Token) (es : List ParseError) : Prop where
  after : s.after = ts ++ s'.after
  before : s'.before = ts.reverse ++ s.before
  errors : s'.errors = s.errors ++ es.toArray
  inner : ∀ t ∈ ts, t.isEnd = false
  located : ∀ e ∈ es, e.token ∈ ts ∨ s'.after.head? = some e.token

namespace Moved

variable {s s₁ s' : State} {ts us : List Token} {es fs : List ParseError}

theorem refl (s : State) : Moved s s [] [] := by
  constructor <;> simp

theorem trans (h : Moved s s₁ ts es) (h' : Moved s₁ s' us fs) :
    Moved s s' (ts ++ us) (es ++ fs) where
  after := by rw [h.after, h'.after, List.append_assoc]
  before := by rw [h'.before, h.before, List.reverse_append, List.append_assoc]
  errors := by rw [h'.errors, h.errors]; simp
  inner := by
    intro t ht
    rcases List.mem_append.mp ht with ht | ht
    · exact h.inner t ht
    · exact h'.inner t ht
  located := by
    intro e he
    rcases List.mem_append.mp he with he | he
    · rcases h.located e he with ht | ht
      · exact Or.inl (List.mem_append_left _ ht)
      · -- The token at the cursor is passed next, or the cursor has stayed at it.
        rw [h'.after] at ht
        cases us with
        | nil => exact Or.inr ht
        | cons u us =>
          obtain rfl : u = e.token := by simpa using ht
          exact Or.inl (by simp)
    · rcases h'.located e he with ht | ht
      · exact Or.inl (List.mem_append_right _ ht)
      · exact Or.inr ht

/-- Moving forward leaves no more tokens ahead. -/
theorem length_le (h : Moved s s' ts es) : s'.after.length ≤ s.after.length := by
  rw [h.after, List.length_append]
  exact Nat.le_add_left _ _

/-- Passing one token that does not mark the end. -/
theorem pass_one {t : Token} {rest : List Token} (h : s.after = t :: rest)
    (ht : t.isEnd = false) : Moved s (s.pass [t] []) [t] [] := by
  constructor <;> simp [h, ht]

/-- Nothing but the number of open productions tells two states apart. -/
theorem of_depth (s : State) (d : Int) : Moved s { s with depth := d } [] [] := by
  constructor <;> simp

end Moved

/-- What the outcome of a run says about the state it started from. -/
def Frame {α : Type} (s : State) : EStateM.Result Failure State α → Prop
  | .ok _ s' => s'.depth = s.depth ∧ ∃ ts es, Moved s s' ts es
  | .error (.rejected e) s' =>
    s.depth ≤ s'.depth ∧ s'.after.head? = some e.token ∧ ∃ ts es, Moved s s' ts es
  | .error .exhausted s' => s'.after = [] ∧ ∃ ts es, Moved s s' ts es

/-- Frames compose: what the first part passes and records comes first. -/
theorem Frame.trans {α : Type} {s : State} (s₁ : State) (hd : s₁.depth = s.depth)
    (hm : ∃ ts es, Moved s s₁ ts es) {r : EStateM.Result Failure State α} (h : Frame s₁ r) :
    Frame s r := by
  obtain ⟨ts, es, hm⟩ := hm
  match r, h with
  | .ok b s', ⟨hd', us, fs, hm'⟩ => exact ⟨hd'.trans hd, _, _, hm.trans hm'⟩
  | .error (.rejected e) s', ⟨hd', hc, us, fs, hm'⟩ =>
    exact ⟨hd ▸ hd', hc, _, _, hm.trans hm'⟩
  | .error .exhausted s', ⟨hc, us, fs, hm'⟩ => exact ⟨hc, _, _, hm.trans hm'⟩

/-- Whether the mark of the end is still to come. -/
def State.HasEnd (s : State) : Prop := ∃ t ∈ s.after, t.isEnd = true

/-- In front of the mark of the end there is a token at the cursor. -/
theorem State.HasEnd.exists_cons {s : State} (h : s.HasEnd) :
    ∃ t rest, s.after = t :: rest := by
  obtain ⟨t, ht, -⟩ := h
  exact List.exists_cons_of_ne_nil (List.ne_nil_of_mem ht)

/-- The mark of the end is never passed. -/
theorem Moved.hasEnd {s s' : State} {ts : List Token} {es : List ParseError}
    (h : Moved s s' ts es) (hs : s.HasEnd) : s'.HasEnd := by
  obtain ⟨t, ht, hend⟩ := hs
  rw [h.after] at ht
  rcases List.mem_append.mp ht with ht | ht
  · simp [h.inner t ht] at hend
  · exact ⟨t, ht, hend⟩

end Moonbridge.Parser

namespace Moonbridge

/-- An error located at the relabeled token. -/
def ParseError.relabel (r : Relabeling) (e : ParseError) : ParseError :=
  ⟨e.problem, r.token e.token⟩

@[simp] theorem ParseError.relabel_identity : ParseError.relabel .identity = id := rfl

/-- A failure located at the relabeled token. -/
def Parser.Failure.relabel (r : Relabeling) : Parser.Failure → Parser.Failure
  | .rejected error => .rejected (error.relabel r)
  | .exhausted => .exhausted

end Moonbridge

namespace Moonbridge.Parser

/-- Surroundings in which a token list can stand: other labels, tokens that were passed
before it, tokens that follow its end, and errors recorded earlier. -/
structure Context extends Relabeling where
  before : List Token
  beyond : List Token
  errors : Array ParseError

namespace Context

/-- The surroundings of a token list that stands alone. -/
def alone : Context := ⟨.identity, [], [], #[]⟩

/-- A state in its surroundings. -/
def state (x : Context) (s : State) : State where
  before := s.before.map x.token ++ x.before
  after := s.after.map x.token ++ x.beyond
  depth := s.depth
  errors := x.errors ++ s.errors.map (ParseError.relabel x.toRelabeling)

/-- The outcome of a run in its surroundings; `m` relabels the answer. -/
def result (x : Context) {α : Type} (m : α → α) :
    EStateM.Result Failure State α → EStateM.Result Failure State α
  | .ok a s => .ok (m a) (x.state s)
  | .error e s => .error (e.relabel x.toRelabeling) (x.state s)

/-- The token at the cursor carries its label in other surroundings. -/
theorem state_after {x : Context} {s : State} {t : Token} {rest : List Token}
    (h : s.after = t :: rest) :
    (x.state s).after = x.token t :: (rest.map x.token ++ x.beyond) := by
  simp [state, h]

/-- Passing tokens and being surrounded do not disturb each other. -/
theorem state_pass (x : Context) {s : State} (ts : List Token) {rest : List Token}
    (h : s.after = ts ++ rest) (es : List ParseError) :
    x.state (s.pass ts es) =
      (x.state s).pass (ts.map x.token) (es.map (ParseError.relabel x.toRelabeling)) := by
  simp [state, State.pass, h]

end Context

/-- The law of a production at a state: the run keeps the frame, an answer in `P` costs at
least one token, and in other surroundings the run is the same up to labels. There `q` stands
for `p`, because what was read before may carry other labels. -/
structure RegularAt {α : Type} (x : Context) (m : α → α) (P : α → Prop) (p q : Parse α)
    (s : State) : Prop where
  frame : Frame s (p.run s)
  takes : ∀ a s', p.run s = .ok a s' → P a → s'.after.length < s.after.length
  carry : s.HasEnd → q.run (x.state s) = x.result m (p.run s)

/-- The law of a production at every state. -/
def Regular {α : Type} (x : Context) (m : α → α) (P : α → Prop) (p q : Parse α) : Prop :=
  ∀ s, RegularAt x m P p q s

namespace Regular

variable {α β : Type} {x : Context} {m : α → α} {m' : β → β} {P : α → Prop} {Q : β → Prop}
  {p q p' q' : Parse α} {f g : α → Parse β} {s s' : State}

/-- An answer leaves as many productions open as before. -/
theorem ok (h : Regular x m P p q) {a : α} (hp : p.run s = .ok a s') :
    s'.depth = s.depth ∧ ∃ ts es, Moved s s' ts es := by
  have := (h s).frame
  rwa [hp] at this

/-- A failure is located at the cursor and leaves the productions open that it comes from. -/
theorem rejected (h : Regular x m P p q) {e : ParseError}
    (hp : p.run s = .error (.rejected e) s') :
    s.depth ≤ s'.depth ∧ s'.after.head? = some e.token ∧ ∃ ts es, Moved s s' ts es := by
  have := (h s).frame
  rwa [hp] at this

/-- Only at the end of the list a production runs out of tokens. -/
theorem exhausted (h : Regular x m P p q) (hp : p.run s = .error .exhausted s') :
    s'.after = [] ∧ ∃ ts es, Moved s s' ts es := by
  have := (h s).frame
  rwa [hp] at this

/-- Fewer answers may be required to cost a token. -/
theorem mono {P' : α → Prop} (h : Regular x m P p q) (hP : ∀ a, P' a → P a) :
    Regular x m P' p q :=
  fun s => ⟨(h s).frame, fun a s' hp ha => (h s).takes a s' hp (hP a ha), (h s).carry⟩

/-- An answer follows the law, if it is not one that costs a token. -/
theorem pure (x : Context) {a b : α} (hm : b = m a) (ha : ¬ P a) :
    Regular x m P (Pure.pure a) (Pure.pure b) := by
  intro s
  constructor
  · exact ⟨rfl, [], [], Moved.refl s⟩
  · intro b s' h hb
    cases h
    exact absurd hb ha
  · intro _
    rw [hm]
    rfl

/-- A run that passes some tokens first follows the law from there. -/
theorem of_pass (h : Regular x m P p' q') (ts : List Token) {rest : List Token}
    (hs : s.after = ts ++ rest) (hin : ∀ t ∈ ts, t.isEnd = false)
    (hp : p.run s = p'.run (s.pass ts []))
    (hq : s.HasEnd → q.run (x.state s) = q'.run ((x.state s).pass (ts.map x.token) [])) :
    RegularAt x m P p q s := by
  have hm : Moved s (s.pass ts []) ts [] := by
    constructor
    · rw [State.pass_after_of_append hs, hs]
    · rfl
    · simp
    · exact hin
    · simp
  constructor
  · rw [hp]
    exact Frame.trans (s := s) (s.pass ts []) rfl ⟨ts, [], hm⟩ (h _).frame
  · intro a s' ha hP
    rw [hp] at ha
    exact Nat.lt_of_lt_of_le ((h _).takes a s' ha hP) hm.length_le
  · intro hend
    have hc := (h (s.pass ts [])).carry (hm.hasEnd hend)
    rw [x.state_pass ts hs] at hc
    rw [hq hend, hp]
    exact hc

/-- A sequence follows the law if the second part takes a token wherever the first part
need not. -/
theorem bind (hp : Regular x m P p q)
    (hf : ∀ a, Regular x m' (fun b => Q b ∧ ¬ P a) (f a) (g (m a))) :
    Regular x m' Q (p >>= f) (q >>= g) := by
  intro s
  constructor
  · rw [EStateM.run_bind]
    have hs := (hp s).frame
    cases hr : p.run s with
    | ok a s₁ =>
      obtain ⟨hd, hm⟩ := hp.ok hr
      exact Frame.trans s₁ hd hm (hf a s₁).frame
    | error e s₁ =>
      rw [hr] at hs
      cases e <;> exact hs
  · intro b s' hb hQ
    obtain ⟨a, s₁, hr, hb⟩ := bind_eq_ok.mp hb
    obtain ⟨-, ts, es, hm⟩ := hp.ok hr
    obtain ⟨-, us, fs, hm'⟩ := (hf a).ok hb
    by_cases ha : P a
    · exact Nat.lt_of_le_of_lt hm'.length_le ((hp s).takes a s₁ hr ha)
    · exact Nat.lt_of_lt_of_le ((hf a s₁).takes b s' hb ⟨hQ, ha⟩) hm.length_le
  · intro hs
    rw [EStateM.run_bind, EStateM.run_bind, (hp s).carry hs]
    cases hr : p.run s with
    | ok a s₁ =>
      obtain ⟨-, ts, es, hm⟩ := hp.ok hr
      exact (hf a s₁).carry (hm.hasEnd hs)
    | error e s₁ => rfl

/-- A sequence whose second part takes a token. -/
theorem seq (hp : Regular x m P p q) (hf : ∀ a, Regular x m' Q (f a) (g (m a))) :
    Regular x m' Q (p >>= f) (q >>= g) :=
  hp.bind fun a => (hf a).mono fun _ hb => hb.1

/-- A sequence whose first part takes a token. -/
theorem seqTaken (hp : Regular x m (fun _ => True) p q)
    (hf : ∀ a, Regular x m' (fun _ => False) (f a) (g (m a))) :
    Regular x m' Q (p >>= f) (q >>= g) :=
  hp.bind fun a => (hf a).mono fun _ hb => hb.2 trivial

end Regular

section Cursor

variable {x : Context}

/-- A production that looks at the token at the cursor follows the law if it does so for
each token. -/
theorem Regular.ofCurrent {α : Type} {m : α → α} {P : α → Prop} {p q : Parse α}
    (hnil : ∀ s, s.after = [] → p.run s = .error .exhausted s)
    (hcons : ∀ s t rest, s.after = t :: rest → RegularAt x m P p q s) : Regular x m P p q := by
  intro s
  cases hs : s.after with
  | cons t rest => exact hcons s t rest hs
  | nil =>
    constructor
    · rw [hnil s hs]
      exact ⟨hs, [], [], Moved.refl s⟩
    · intro a s' hp
      rw [hnil s hs] at hp
      cases hp
    · rintro ⟨t, ht, -⟩
      simp [hs] at ht

/-- A production that answers without moving follows the law. -/
theorem RegularAt.stay {α : Type} {m : α → α} {P : α → Prop} {p q : Parse α} {s : State} {a : α}
    (hp : p.run s = .ok a s) (ha : ¬ P a) (hq : q.run (x.state s) = .ok (m a) (x.state s)) :
    RegularAt x m P p q s := by
  constructor
  · rw [hp]
    exact ⟨rfl, [], [], Moved.refl s⟩
  · intro b s' hb
    rw [hp] at hb
    cases hb
    exact fun h => absurd h ha
  · intro _
    rw [hp, hq]
    rfl

/-- A production that takes the token at the cursor follows the law. -/
theorem RegularAt.take {α : Type} {m : α → α} {P : α → Prop} {p q : Parse α} {s : State}
    {t : Token} {rest : List Token} {a : α} (hs : s.after = t :: rest) (ht : t.isEnd = false)
    (hp : p.run s = .ok a (s.pass [t] []))
    (hq : q.run (x.state s) = .ok (m a) ((x.state s).pass [x.token t] [])) :
    RegularAt x m P p q s := by
  constructor
  · rw [hp]
    exact ⟨rfl, [t], [], Moved.pass_one hs ht⟩
  · intro b s' hb _
    rw [hp] at hb
    cases hb
    simp [hs]
  · intro _
    have hx := x.state_pass [t] hs []
    rw [hp, hq]
    simp only [Context.result, hx, List.map_cons, List.map_nil]

/-- To look at the token at the cursor follows the law. -/
theorem current_regular : Regular x x.token (fun _ => False) current current :=
  .ofCurrent (fun _ hs => current_nil hs) fun _ _ _ hs =>
    .stay (current_cons hs) id (current_cons (Context.state_after hs))

theorem looksAt_regular (k : Kind) : Regular x id (fun _ => False) (looksAt k) (looksAt k) :=
  current_regular.seq fun t => .pure x (by simp) id

theorem atEnd_regular : Regular x id (fun _ => False) atEnd atEnd :=
  current_regular.seq fun t => .pure x (by simp) id

/-- Taking the token at the cursor if it is of the wanted kind. -/
theorem accept_regular {k : Kind} (hk : k ≠ .endOfInput) :
    Regular x (Option.map x.token) (fun o => o.isSome = true) (accept k) (accept k) := by
  refine .ofCurrent (fun s hs => ?_) fun s t rest hs => ?_
  · unfold accept looksAt
    simp [current_nil hs]
  · have hx := Context.state_after (x := x) hs
    by_cases ht : t.kind = k
    · exact .take hs (by simp [Token.isEnd, ht, hk]) (accept_of_kind hs ht hk)
        (accept_of_kind hx (by simpa using ht) hk)
    · exact .stay (accept_of_ne hs ht) (by simp) (accept_of_ne hx (by simpa using ht))

/-- Taking the token at the cursor, which has to be of the wanted kind. -/
theorem expect_regular {k : Kind} {problem : Problem} (hk : k ≠ .endOfInput) :
    Regular x x.token (fun _ => True) (expect k problem) (expect k problem) := by
  refine (accept_regular hk).bind fun o => ?_
  cases o with
  | some t => exact .pure x rfl (by simp)
  | none =>
    refine .ofCurrent (fun s hs => ?_) fun s t rest hs => ?_
    · simp [current_nil hs]
    · simp only [Option.map_none]
      constructor
      · rw [bind_of_ok (current_cons hs)]
        exact ⟨Int.le_refl _, by simp [hs], [], [], Moved.refl s⟩
      · intro a s' h
        rw [bind_of_ok (current_cons hs)] at h
        cases h
      · intro _
        rw [bind_of_ok (current_cons hs), bind_of_ok (current_cons (Context.state_after hs))]
        rfl

/-- Taking the operator at the cursor if it is one of the wanted ones. -/
theorem acceptOperator_regular (ops : List BinaryOp) :
    Regular x (Option.map (Operator.relabel x.toRelabeling)) (fun o => o.isSome = true)
      (acceptOperator ops) (acceptOperator ops) := by
  refine .ofCurrent (fun s hs => ?_) fun s t rest hs => ?_
  · unfold acceptOperator
    simp [current_nil hs]
  · have hx := Context.state_after (x := x) hs
    by_cases ht : ∃ op, Operator.ofToken? t = some op ∧ op.op ∈ ops
    · obtain ⟨op, ho, hop⟩ := ht
      obtain rfl := token_of_ofToken? ho
      have hx' : (x.state s).after = (op.relabel x.toRelabeling).token :: _ := hx
      exact .take hs (isEnd_operator op) (acceptOperator_of_mem hs hop)
        (acceptOperator_of_mem hx' hop)
    · have hne : ∀ op, Operator.ofToken? t = some op → op.op ∉ ops :=
        fun op ho hop => ht ⟨op, ho, hop⟩
      have hne' : ∀ op, Operator.ofToken? (x.token t) = some op → op.op ∉ ops := by
        intro op ho
        rw [Operator.ofToken?_token, Option.map_eq_some_iff] at ho
        obtain ⟨op, ho, rfl⟩ := ho
        exact hne op ho
      exact .stay (acceptOperator_of_not_mem hs hne) (by simp)
        (acceptOperator_of_not_mem hx hne')

/-- An error reported at the cursor. -/
theorem reportCurrent_regular (problem : Problem) :
    Regular x id (fun _ => False) (current >>= fun t => report t problem)
      (current >>= fun t => report t problem) := by
  refine .ofCurrent (fun s hs => ?_) fun s t rest hs => ?_
  · simp [current_nil hs]
  · constructor
    · rw [bind_of_ok (current_cons hs)]
      refine ⟨rfl, [], [⟨problem, t⟩], ?_⟩
      constructor <;> simp [hs]
    · exact fun _ _ _ h => h.elim
    · intro _
      rw [bind_of_ok (current_cons hs), bind_of_ok (current_cons (Context.state_after hs))]
      simp [report, Context.result, Context.state, ParseError.relabel]

end Cursor

section Levels

variable {α β : Type} {x : Context} {m : α → α} {P : α → Prop} {p q : Parse α}

/-- A production that may not be opened any more fails at the cursor. -/
theorem overrun_regular (what : String) :
    Regular x m P (overrun what : Parse α) (overrun what) := by
  have hrun : ∀ s t rest, s.after = t :: rest → (overrun what : Parse α).run s =
      .error (.rejected ⟨.tooDeep what, t⟩) { s with depth := s.depth + 1 } := by
    intro s t rest hs
    unfold overrun
    simp [current_cons (s := { s with depth := s.depth + 1 }) hs]
  intro s
  constructor
  · cases hs : s.after with
    | nil =>
      unfold overrun
      simp only [EStateM.run_bind, EStateM.run_modify,
        current_nil (s := { s with depth := s.depth + 1 }) hs]
      exact ⟨hs, [], [], Moved.of_depth s _⟩
    | cons t rest =>
      rw [hrun s t rest hs]
      exact ⟨by simp only []; omega, by simp [hs], [], [], Moved.of_depth s _⟩
  · intro a s' h
    cases hs : s.after with
    | nil =>
      unfold overrun at h
      simp [current_nil (s := { s with depth := s.depth + 1 }) hs] at h
    | cons t rest => rw [hrun s t rest hs] at h; cases h
  · intro hs
    obtain ⟨t, rest, ht⟩ := hs.exists_cons
    rw [hrun s t rest ht, hrun _ _ _ (Context.state_after ht)]
    rfl

/-- The run of a production one level deeper, as long as there is room. -/
theorem run_nested {what : String} {s : State} (hs : s.depth < maxNesting) :
    (nested what p).run s =
      match p.run { s with depth := s.depth + 1 } with
      | .ok a s' => .ok a { s' with depth := s'.depth - 1 }
      | .error e s' => .error e s' := by
  have hle : ¬ maxNesting ≤ s.depth := by omega
  simp only [nested, enter, EStateM.run_bind, EStateM.run_get, hle, if_false, EStateM.run_modify,
    leave]
  cases p.run { s with depth := s.depth + 1 } <;> rfl

/-- Without room, opening a level fails. -/
theorem run_nested_full {what : String} {s : State} (hs : maxNesting ≤ s.depth) :
    (nested what p).run s = (overrun what : Parse α).run s := by
  simp only [nested, enter, EStateM.run_bind, EStateM.run_get, hs, if_true, overrun,
    EStateM.run_modify]
  cases current.run { s with depth := s.depth + 1 } <;> rfl

/-- With room for one more level the law of the production holds around it. -/
theorem nested_regularAt_inside (what : String) (hp : Regular x m P p q) {s : State}
    (hs : s.depth < maxNesting) : RegularAt x m P (nested what p) (nested what q) s := by
  have hm := Moved.of_depth s (s.depth + 1)
  constructor
  · rw [run_nested hs]
    cases hr : p.run { s with depth := s.depth + 1 } with
    | ok a s' =>
      obtain ⟨hd, ts, es, hm'⟩ := hp.ok hr
      exact ⟨by simp only [hd]; omega, _, _, hm.trans (hm'.trans (Moved.of_depth s' _))⟩
    | error e s' =>
      cases e with
      | rejected e =>
        obtain ⟨hd, hc, ts, es, hm'⟩ := hp.rejected hr
        simp only [] at hd
        exact ⟨by omega, hc, _, _, hm.trans hm'⟩
      | exhausted =>
        obtain ⟨hc, ts, es, hm'⟩ := hp.exhausted hr
        exact ⟨hc, _, _, hm.trans hm'⟩
  · intro a s' h ha
    rw [run_nested hs] at h
    cases hr : p.run { s with depth := s.depth + 1 } with
    | ok b s₁ =>
      rw [hr] at h
      cases h
      exact (hp { s with depth := s.depth + 1 }).takes a s₁ hr ha
    | error e s₁ => rw [hr] at h; cases h
  · intro hend
    have hc := (hp { s with depth := s.depth + 1 }).carry hend
    rw [run_nested hs, run_nested (show (x.state s).depth < maxNesting from hs)]
    change (match q.run (x.state { s with depth := s.depth + 1 }) with
      | .ok a s' => _ | .error e s' => _) = _
    rw [hc]
    cases p.run { s with depth := s.depth + 1 } <;> rfl

/-- Without room the production is not reached, and what fails instead keeps the law. -/
theorem nested_regularAt_full (what : String) {s : State} (hs : maxNesting ≤ s.depth) :
    RegularAt x m P (nested what p) (nested what q) s := by
  have ho := overrun_regular (x := x) (m := m) (P := P) what s
  constructor
  · rw [run_nested_full hs]
    exact ho.frame
  · rw [run_nested_full hs]
    exact ho.takes
  · intro hend
    rw [run_nested_full hs, run_nested_full (show maxNesting ≤ (x.state s).depth from hs)]
    exact ho.carry hend

/-- Opening a level around a production keeps the law. -/
theorem nested_regular (what : String) (hp : Regular x m P p q) :
    Regular x m P (nested what p) (nested what q) := by
  intro s
  by_cases hs : s.depth < maxNesting
  · exact nested_regularAt_inside what hp hs
  · exact nested_regularAt_full what (Int.not_lt.mp hs)

end Levels

section Loops

variable {α β : Type} {x : Context} {m : α → α} {m' : β → β}

/-- Whether a round asks for another one. -/
def Round.Again : Round α β → Prop
  | again _ => True
  | done _ => False

/-- A round with relabeled parts. -/
def Round.map (m : α → α) (m' : β → β) : Round α β → Round α β
  | again a => again (m a)
  | done b => done (m' b)

/-- Rounds that follow the law pass a token whenever they ask for another round. -/
theorem Regular.advances {round round' : α → Parse (Round α β)}
    {mr : Round α β → Round α β}
    (h : ∀ a, Regular x mr Round.Again (round a) (round' a)) : Advances round :=
  fun a s a' s' hr => (h a s).takes (.again a') s' hr trivial

/-- A loop follows the law if its rounds do and each round but the last takes a token. -/
theorem repeated_regular {round : α → Parse (Round α β)}
    (h : ∀ a, Regular x (Round.map m m') Round.Again (round a) (round (m a))) (a : α) :
    Regular x m' (fun _ => False) (repeated round a) (repeated round (m a)) := by
  have hadv := Regular.advances h
  intro s
  constructor
  · refine repeated_induction hadv (motive := fun _ s r => Frame s r) ?_ ?_ ?_ a s
    · intro a s a' s' hr ih
      obtain ⟨hd, hm⟩ := (h a).ok hr
      exact Frame.trans s' hd hm ih
    · intro a s b s' hr
      exact (h a).ok hr
    · intro a s e s' hr
      have := (h a s).frame
      rw [hr] at this
      cases e <;> exact this
  · exact fun _ _ _ h => h.elim
  · refine repeated_induction hadv
      (motive := fun a s r => s.HasEnd → (repeated round (m a)).run (x.state s) = x.result m' r)
      ?_ ?_ ?_ a s
    · intro a s a' s' hr ih hs
      obtain ⟨-, ts, es, hm⟩ := (h a).ok hr
      have hc := (h a s).carry hs
      rw [hr] at hc
      rw [repeated_again hadv hc]
      exact ih (hm.hasEnd hs)
    · intro a s b s' hr hs
      have hc := (h a s).carry hs
      rw [hr] at hc
      exact repeated_done hc
    · intro a s e s' hr hs
      have hc := (h a s).carry hs
      rw [hr] at hc
      exact repeated_error hc

end Loops

end Moonbridge.Parser
