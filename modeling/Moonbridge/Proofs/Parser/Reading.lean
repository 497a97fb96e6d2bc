import Moonbridge.Proofs.Grammar.First
import Moonbridge.Proofs.Parser.Law

/-!
# Reading a known piece

In front of a known piece a production does what the piece says, and goes on behind it. The
statement compares runs: in front of the piece one production runs as another one does behind
it. What follows the piece is constrained by the kind of its first token only, and the room is
given by the number of open productions. Pieces compose, and the loops take one round for each
of their parts.
-/

namespace Moonbridge.Parser

open Grammar

/-- Whether tokens follow whose first one is of a kind that `P` allows. -/
def Leads (P : Kind → Prop) (ts : List Token) : Prop := ∃ t rest, ts = t :: rest ∧ P t.kind

/-- Any token may follow. -/
abbrev Anything : Kind → Prop := fun _ => True

/-- A token of a kind leads what stands behind it. -/
theorem Leads.cons {P : Kind → Prop} {t : Token} {k : Kind} (ht : t.kind = k) (h : P k)
    (rest : List Token) : Leads P (t :: rest) :=
  ⟨t, rest, rfl, ht ▸ h⟩

/-- What leads some tokens leads them whatever follows. -/
theorem Leads.append {P : Kind → Prop} {ts : List Token} (h : Leads P ts) (rest : List Token) :
    Leads P (ts ++ rest) := by
  obtain ⟨t, ts, rfl, ht⟩ := h
  exact ⟨t, ts ++ rest, rfl, ht⟩

/-- What may lead under a condition may lead under every weaker one. -/
theorem Leads.mono {P Q : Kind → Prop} {ts : List Token} (h : Leads P ts)
    (hPQ : ∀ k, P k → Q k) : Leads Q ts := by
  obtain ⟨t, rest, hts, ht⟩ := h
  exact ⟨t, rest, hts, hPQ _ ht⟩

/-- Anything leads where a token is still to come. -/
theorem leads_append_cons (ts : List Token) (t : Token) (rest : List Token) :
    Leads Anything (ts ++ t :: rest) := by
  cases ts with
  | nil => exact ⟨t, rest, rfl, trivial⟩
  | cons u us => exact ⟨u, us ++ t :: rest, rfl, trivial⟩

/-- A phrase leads as its category begins. -/
theorem leads_of_begins {P : Kind → Prop} {c : Category} {ts : List Token} (h : c.Begins ts)
    (hP : ∀ k ∈ c.first, P k) : Leads P ts := by
  obtain ⟨t, rest, hts, ht⟩ := h
  exact ⟨t, rest, hts, hP _ ht⟩

/-- With `n` levels of room, in front of `ts` and a token that `P` allows, `p` runs as `q` does
behind `ts` with `es` recorded. -/
def Continues {α : Type} (n : Nat) (P : Kind → Prop) (p q : Parse α) (ts : List Token)
    (es : List ParseError) : Prop :=
  ∀ s rest, s.depth + n = maxNesting → s.after = ts ++ rest → Leads P rest →
    p.run s = q.run (s.pass ts es)

/-- In front of `ts` and a token that `P` allows, `p` answers `a`. -/
abbrev Reads {α : Type} (n : Nat) (P : Kind → Prop) (p : Parse α) (a : α) (ts : List Token)
    (es : List ParseError) : Prop :=
  Continues n P p (pure a) ts es

namespace Continues

variable {α β : Type} {n : Nat} {P Q : Kind → Prop} {p q r : Parse α} {f : α → Parse β} {a : α}
  {ts us : List Token} {es fs : List ParseError} {k : Kind}

theorem refl (n : Nat) (P : Kind → Prop) (p : Parse α) : Continues n P p p [] [] := by
  intro s rest _ _ _
  rw [State.pass_nil]

/-- Two pieces are read one after the other if the second one may follow the first. -/
theorem trans (h : Continues n P p q ts es) (h' : Continues n Q q r us fs)
    (hlead : ∀ rest, Leads Q rest → Leads P (us ++ rest)) :
    Continues n Q p r (ts ++ us) (es ++ fs) := by
  intro s rest hd hs hrest
  rw [List.append_assoc] at hs
  rw [h s (us ++ rest) hd hs (hlead rest hrest),
    h' (s.pass ts es) rest hd (State.pass_after_of_append hs es) hrest, State.pass_pass]

/-- Fewer tokens may follow. -/
theorem mono (h : Continues n P p q ts es) (hQ : ∀ k, Q k → P k) : Continues n Q p q ts es :=
  fun s rest hd hs hrest => h s rest hd hs (hrest.mono hQ)

/-- In front of one more piece, which may follow. -/
theorem trans_of_leads (h : Continues n P p q ts es) (h' : Continues n Q q r us fs)
    (hlead : Leads P us) : Continues n Q p r (ts ++ us) (es ++ fs) :=
  h.trans h' fun rest _ => hlead.append rest

/-- In front of a closing piece, at which no error is recorded. -/
theorem closing (h : Continues n P p q ts es) (h' : Continues n Q q r us [])
    (hlead : Leads P us) : Continues n Q p r (ts ++ us) es := by
  simpa using h.trans_of_leads h' hlead

/-- A piece that anything may follow, and one more. -/
theorem andThen (h : Continues n Anything p q ts es) (h' : Continues n Q q r us fs) :
    Continues n Q p r (ts ++ us) (es ++ fs) := by
  refine h.trans h' fun rest hrest => ?_
  cases us with
  | nil => exact hrest.mono fun _ _ => trivial
  | cons u us => exact ⟨u, us ++ rest, rfl, trivial⟩

/-- What is read first in a sequence. -/
theorem bind_pure (h : Reads n P p a ts es) (f : α → Parse β) :
    Continues n P (p >>= f) (f a) ts es := by
  intro s rest hd hs hrest
  rw [EStateM.run_bind, h s rest hd hs hrest]
  rfl

section Cursor

variable {t : Token} {problem : Problem}

/-- A token of the kind that is expected is taken. -/
theorem expect (ht : t.kind = k) (hk : k ≠ .endOfInput) (n : Nat) (P : Kind → Prop) :
    Reads n P (Parser.expect k problem) t [t] [] :=
  fun _ _ _ hs _ => expect_of_kind hs ht hk

/-- A token of the kind that is looked for is taken. -/
theorem accept (ht : t.kind = k) (hk : k ≠ .endOfInput) (n : Nat) (P : Kind → Prop) :
    Reads n P (Parser.accept k) (some t) [t] [] :=
  fun _ _ _ hs _ => accept_of_kind hs ht hk

/-- A token of another kind is not accepted. -/
theorem notAccept (k : Kind) (n : Nat) : Reads n (· ≠ k) (Parser.accept k) none [] [] := by
  rintro s rest _ hs ⟨t, more, rfl, ht⟩
  rw [accept_of_ne hs ht, State.pass_nil]
  rfl

/-- A token of the kind that is looked for is seen, and not taken. -/
theorem looksAt (k : Kind) (n : Nat) : Reads n (· = k) (Parser.looksAt k) true [] [] := by
  rintro s rest _ hs ⟨t, more, rfl, ht⟩
  rw [looksAt_cons hs, State.pass_nil, beq_iff_eq.mpr ht]
  rfl

/-- A token of another kind is seen not to be looked for. -/
theorem notLooksAt (k : Kind) (n : Nat) : Reads n (· ≠ k) (Parser.looksAt k) false [] [] := by
  rintro s rest _ hs ⟨t, more, rfl, ht⟩
  rw [looksAt_cons hs, State.pass_nil, beq_eq_false_iff_ne.mpr ht]
  rfl

/-- An operator among those that are looked for is taken. -/
theorem operator {ops : List BinaryOp} {op : Operator} (hop : op.op ∈ ops) (n : Nat)
    (P : Kind → Prop) : Reads n P (acceptOperator ops) (some op) [op.token] [] :=
  fun _ _ _ hs _ => acceptOperator_of_mem hs hop

/-- A token that is none of the operators is not accepted as one. -/
theorem notOperator (ops : List BinaryOp) (n : Nat) :
    Reads n (fun k => ∀ op ∈ ops, k ≠ op.kind) (acceptOperator ops) none [] [] := by
  rintro s rest _ hs ⟨t, more, rfl, ht⟩
  have hne : ∀ op, Operator.ofToken? t = some op → op.op ∉ ops := by
    intro op hop hmem
    obtain rfl := token_of_ofToken? hop
    exact ht op.op hmem op.kind_eq
  rw [acceptOperator_of_not_mem hs hne, State.pass_nil]
  rfl

variable {g : Token → Parse β} {g' : Option Token → Parse β} {c : Bool → Parse β} {q' : Parse β}

/-- An expected token, and what is read behind it. -/
theorem expecting (ht : t.kind = k) (hk : k ≠ .endOfInput) (h : Continues n P (g t) q' us fs) :
    Continues n P (Parser.expect k problem >>= g) q' (t :: us) fs :=
  ((expect ht hk n Anything).bind_pure g).andThen h

/-- An accepted token, and what is read behind it. -/
theorem accepting (ht : t.kind = k) (hk : k ≠ .endOfInput)
    (h : Continues n P (g' (some t)) q' us fs) :
    Continues n P (Parser.accept k >>= g') q' (t :: us) fs :=
  ((accept ht hk n Anything).bind_pure g').andThen h

/-- A piece that does not begin with a token that would be accepted. -/
theorem passingBy (h : Continues n P (g' none) q' us fs) (hlead : Leads (· ≠ k) us) :
    Continues n P (Parser.accept k >>= g') q' us fs :=
  ((notAccept k n).bind_pure g').trans_of_leads h hlead

/-- A piece that begins with another token than the one that is looked for. -/
theorem lookingPast (h : Continues n P (c false) q' us fs) (hlead : Leads (· ≠ k) us) :
    Continues n P (Parser.looksAt k >>= c) q' us fs :=
  ((notLooksAt k n).bind_pure c).trans_of_leads h hlead

/-- A piece that begins with the token that is looked for. -/
theorem lookingAt (h : Continues n P (c true) q' us fs) (hlead : Leads (· = k) us) :
    Continues n P (Parser.looksAt k >>= c) q' us fs :=
  ((looksAt k n).bind_pure c).trans_of_leads h hlead

end Cursor

/-- A production one level deeper reads the same piece. -/
theorem nested {what : String} (h : Reads n P p a ts es) :
    Reads (n + 1) P (Parser.nested what p) a ts es := by
  intro s rest hd hs hrest
  have hroom : s.depth < maxNesting := by omega
  have hinside := h { s with depth := s.depth + 1 } rest (by simp only []; omega) hs hrest
  rw [run_nested hroom, hinside]
  simp [State.pass]

end Continues

section Loops

variable {α β : Type} {n : Nat} {P : Kind → Prop} {round : α → Parse (Round α β)} {a a' : α} {b : β}
  {ts : List Token} {es : List ParseError}

/-- A loop reads what its next round reads, and goes on. -/
theorem Continues.again (hadv : Advances round)
    (h : Reads n P (round a) (.again a') ts es) :
    Continues n P (repeated round a) (repeated round a') ts es := by
  intro s rest hd hs hrest
  exact repeated_again hadv (h s rest hd hs hrest)

/-- A loop ends with the round that has the answer. -/
theorem Continues.done (h : Reads n P (round a) (.done b) ts es) :
    Reads n P (repeated round a) b ts es := by
  intro s rest hd hs hrest
  exact repeated_done (h s rest hd hs hrest)

end Loops

end Moonbridge.Parser
