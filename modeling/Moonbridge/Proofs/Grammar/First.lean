import Moonbridge.Proofs.Grammar.Phrase

/-!
# How phrases begin

Every phrase but an empty repetition has a first token, and its kind is one of those that the
category can begin with. A chain of operators that stands for a name is that name alone.
-/

namespace Moonbridge.Grammar

/-- The kinds of token that a primary expression can begin with. -/
def primaryFirst : List Kind :=
  [.number, .string, .nilKeyword, .identifier, .leftBrace, .leftParen]

/-- The kinds of token that a statement can begin with. -/
def statementFirst : List Kind :=
  .ifKeyword :: .whileKeyword :: .returnKeyword :: .minus :: primaryFirst

/-- The kinds of token that a phrase of a category can begin with. -/
def Category.first : Category → List Kind
  | primary | call => primaryFirst
  | tier _ | expression | arguments => .minus :: primaryFirst
  | entry | fields => .leftBracket :: .minus :: primaryFirst
  | parameters => [.identifier]
  | statement => statementFirst
  | declaration | declarations => .functionKeyword :: .localKeyword :: statementFirst

/-- Whether a token sequence begins as a phrase of a category does. -/
def Category.Begins (c : Category) (ts : List Token) : Prop :=
  ∃ t rest, ts = t :: rest ∧ t.kind ∈ c.first

/-- Categories of repetitions may be empty. -/
def Category.Repeats : Category → Prop
  | fields | declarations => True
  | _ => False

/-- The tokens behind a beginning do not matter. -/
theorem Category.Begins.append {c : Category} {ts : List Token} (h : c.Begins ts)
    (us : List Token) : c.Begins (ts ++ us) := by
  obtain ⟨t, rest, rfl, ht⟩ := h
  exact ⟨t, rest ++ us, rfl, ht⟩

/-- What begins a category begins every category with more first tokens. -/
theorem Category.Begins.mono {c c' : Category} {ts : List Token} (h : c.Begins ts)
    (hc : ∀ k ∈ c.first, k ∈ c'.first) : c'.Begins ts := by
  obtain ⟨t, rest, rfl, ht⟩ := h
  exact ⟨t, rest, rfl, hc _ ht⟩

/-- A token of a kind that may stand first begins the category. -/
theorem Category.begins_cons {c : Category} {t : Token} {k : Kind} (ht : t.kind = k)
    (hk : k ∈ c.first) (rest : List Token) : c.Begins (t :: rest) :=
  ⟨t, rest, rfl, ht ▸ hk⟩

namespace Phrase

/-- A phrase that is no repetition begins as its category says. -/
theorem begins {c : Category} (d : Phrase c) (hc : ¬ c.Repeats) : c.Begins d.tokens := by
  induction d with
  | literal t h =>
    rcases h with h | h
    · exact Category.begins_cons h (by decide) _
    · exact Category.begins_cons h (by decide) _
  | nil t => exact Category.begins_cons t.2 (by decide) _
  | name t => exact Category.begins_cons t.2 (by decide) _
  | table o fs c _ => exact Category.begins_cons o.2 (by decide) _
  | tableLast o fs e c _ _ => exact Category.begins_cons o.2 (by decide) _
  | grouping o e c _ => exact Category.begins_cons o.2 (by decide) _
  | noFields => exact absurd trivial hc
  | moreFields fs e c _ _ => exact absurd trivial hc
  | positional e ih => exact (ih id).mono (by decide)
  | named t q e _ => exact Category.begins_cons t.2 (by decide) _
  | keyed o k c q e _ _ => exact Category.begins_cons o.2 (by decide) _
  | single p ih => exact ih id
  | called f o c ih => exact (ih id).append _
  | calledWith f o as c ih _ => exact ((ih id).append _).append _
  | field e d t ih => exact (ih id).append _
  | index e o k c ih _ => exact ((ih id).append _).append _
  | argument e ih => exact (ih id).mono (by decide)
  | moreArguments as c e ih _ => exact (ih id).append _
  | unsigned e ih => exact (ih id).mono (by decide)
  | negated m e _ => exact Category.begins_cons m.2 (by decide) _
  | operand e ih => exact (ih id).mono fun _ hk => hk
  | joined l op h r ih _ => exact (ih id).append _
  | value e ih => exact (ih id).mono (by decide)
  | assigned t q e ih _ => exact ((ih id).mono (by decide)).append _
  | parameter t => exact Category.begins_cons t.2 (by decide) _
  | moreParameters ps c t ih => exact (ih id).append _
  | conditional i e t s d _ _ => exact Category.begins_cons i.2 (by decide) _
  | alternative i e t s l r d _ _ _ => exact Category.begins_cons i.2 (by decide) _
  | loop w e t s d _ _ => exact Category.begins_cons w.2 (by decide) _
  | block o ds c _ => exact Category.begins_cons o.2 (by decide) _
  | returned k s => exact Category.begins_cons k.2 (by decide) _
  | returnedValue k e s _ => exact Category.begins_cons k.2 (by decide) _
  | expressed e s ih => exact ((ih id).mono (by decide)).append _
  | procedure k n o c ds d _ => exact Category.begins_cons k.2 (by decide) _
  | function k n o ps c ds d _ _ => exact Category.begins_cons k.2 (by decide) _
  | declared k n s => exact Category.begins_cons k.2 (by decide) _
  | initialized k n q e s _ => exact Category.begins_cons k.2 (by decide) _
  | stated s ih => exact (ih id).mono (by decide)
  | noDeclarations => exact absurd trivial hc
  | moreDeclarations ds d _ _ => exact absurd trivial hc

end Phrase

end Moonbridge.Grammar
