import Moonbridge.Proofs.Grammar.First

/-!
# Phrases without errors

A phrase gives rise to no error exactly when it belongs to the documented grammar and no list
of arguments or parameters in it is too long. The point is the target of an assignment: that
its tree is a name is the same as that a single name is all it consists of.
-/

open Moonbridge.Parser (maxListed)

namespace Moonbridge.Grammar

namespace Phrase

section Names

variable {t : Token}

/-- A primary expression that stands for a name is the name. -/
theorem tokens_of_name_primary (d : Phrase .primary) (h : d.tree = Expr.name t) :
    d.tokens = [t] ∧ t.kind = .identifier := by
  cases d with
  | name u =>
    obtain rfl : u.1 = t := Expr.name.inj h
    exact ⟨rfl, u.2⟩
  | _ => cases h

/-- Only a single identifier has a bare name for its tree. -/
theorem tokens_of_name_call (d : Phrase .call) (h : d.tree = Expr.name t) :
    d.tokens = [t] ∧ t.kind = .identifier := by
  cases d with
  | single p => exact tokens_of_name_primary p h
  | _ => cases h

/-- An expression with operators never stands for a name. -/
theorem tokens_of_name {n : Nat} (d : Phrase (.tier n)) (h : d.tree = Expr.name t) :
    d.tokens = [t] ∧ t.kind = .identifier := by
  induction n with
  | zero =>
    cases d with
    | unsigned e => exact tokens_of_name_call e h
    | negated m e => cases h
  | succ n ih =>
    cases d with
    | operand e => exact ih e h
    | joined l op hop r => cases h

/-- A primary expression of one name stands for it. -/
theorem name_of_tokens_primary (d : Phrase .primary) (hk : t.kind = .identifier)
    (h : d.tokens = [t]) : d.tree = Expr.name t ∧ d.errors = [] ∧ d.nesting = 0 := by
  cases d with
  | literal u hu =>
    obtain rfl : u = t := by simpa [tokens] using h
    simp [hk] at hu
  | nil u =>
    obtain rfl : u.1 = t := by simpa [tokens] using h
    simp [u.2] at hk
  | name u =>
    obtain rfl : u.1 = t := by simpa [tokens] using h
    exact ⟨rfl, rfl, rfl⟩
  | table o fs c => simp [tokens] at h
  | tableLast o fs e c => simp [tokens] at h
  | grouping o e c => simp [tokens] at h

/-- A single identifier derives as a bare name, without faults and without nesting. -/
theorem name_of_tokens_call (d : Phrase .call) (hk : t.kind = .identifier)
    (h : d.tokens = [t]) : d.tree = Expr.name t ∧ d.errors = [] ∧ d.nesting = 0 := by
  cases d with
  | single p => exact name_of_tokens_primary p hk h
  | called f o c =>
    obtain ⟨u, rest, hf, -⟩ := f.begins id
    simp [tokens, hf] at h
  | calledWith f o as c =>
    obtain ⟨u, rest, hf, -⟩ := f.begins id
    simp [tokens, hf] at h
  | field e d u =>
    obtain ⟨u, rest, hf, -⟩ := e.begins id
    simp [tokens, hf] at h
  | index e o k c =>
    obtain ⟨u, rest, hf, -⟩ := e.begins id
    simp [tokens, hf] at h

/-- An expression of one name stands for it, has no errors and opens no production. -/
theorem name_of_tokens {n : Nat} (d : Phrase (.tier n)) (hk : t.kind = .identifier)
    (h : d.tokens = [t]) : d.tree = Expr.name t ∧ d.errors = [] ∧ d.nesting = 0 := by
  induction n with
  | zero =>
    cases d with
    | unsigned e => exact name_of_tokens_call e hk h
    | negated m e =>
      obtain ⟨rfl, -⟩ : m.1 = t ∧ _ := by simpa [tokens] using h
      simp [m.2] at hk
  | succ n ih =>
    cases d with
    | operand e => exact ih e h
    | joined l op hop r =>
      obtain ⟨u, rest, hl, -⟩ := l.begins id
      simp [tokens, hl] at h

end Names

/-- An assignment is in order exactly when its target is a bare name. -/
theorem mistarget_eq_nil_iff (t : Phrase (.tier 6)) (equals : Token) :
    mistarget t.tree equals = [] ↔ ∃ name : Of .identifier, t.tokens = [name.1] := by
  constructor
  · intro h
    unfold mistarget at h
    split at h
    · rename_i token htree
      obtain ⟨htokens, hk⟩ := tokens_of_name t htree
      exact ⟨⟨token, hk⟩, htokens⟩
    · cases h
  · rintro ⟨name, htokens⟩
    rw [(name_of_tokens t name.2 htokens).1]
    rfl

/-- A list takes one more item without an error as long as it is not full. -/
theorem surplus_eq_nil_iff {what : String} {count : Nat} {c : Category} {ts : List Token}
    (h : c.Begins ts) : surplus what count ts = [] ↔ count + 1 ≤ maxListed := by
  obtain ⟨t, rest, rfl, -⟩ := h
  unfold surplus
  split <;> simp <;> omega

/-- The errors of a phrase are those of the two limits that the parser goes on from. -/
theorem errors_eq_nil_iff {c : Category} (d : Phrase c) :
    d.errors = [] ↔ d.Documented ∧ d.longestList ≤ maxListed := by
  induction d with
  | argument e ih =>
    have hone : 1 ≤ maxListed := by decide
    simp only [errors, Documented, longestList, ih, Nat.max_le, hone, true_and]
  | moreArguments as c e iha ihe =>
    simp only [errors, Documented, longestList, List.append_eq_nil_iff, iha, ihe,
      surplus_eq_nil_iff (e.begins id), Nat.max_le]
    constructor
    · rintro ⟨⟨⟨ha, hla⟩, hs⟩, he, hle⟩
      exact ⟨⟨ha, he⟩, hs, hla, hle⟩
    · rintro ⟨⟨ha, he⟩, hs, hla, hle⟩
      exact ⟨⟨⟨ha, hla⟩, hs⟩, he, hle⟩
  | moreParameters ps c t ih =>
    have ht : Category.parameters.Begins [t.1] := Category.begins_cons t.2 (by decide) []
    simp only [errors, Documented, longestList, List.append_eq_nil_iff, ih,
      surplus_eq_nil_iff ht, Nat.max_le, true_and]
    exact ⟨fun h => ⟨h.2, h.1.2⟩, fun h => ⟨⟨ps.documented_parameters, h.2⟩, h.1⟩⟩
  | function k n o ps c ds d ihp ihd =>
    simp only [errors, Documented, longestList, List.append_eq_nil_iff, ihp, ihd, Nat.max_le]
    exact ⟨fun h => ⟨h.2.1, h.1.2, h.2.2⟩, fun h => ⟨⟨ps.documented_parameters, h.2.1⟩, h.1, h.2.2⟩⟩
  | parameter t => simp [errors, Documented, longestList, maxListed]
  | assigned t q e iht ihe =>
    simp only [errors, Documented, longestList, List.append_eq_nil_iff, ihe,
      mistarget_eq_nil_iff, Nat.max_le]
    constructor
    · rintro ⟨⟨ht, he, hle⟩, hname⟩
      exact ⟨⟨hname, he⟩, (iht.mp ht).2, hle⟩
    · rintro ⟨⟨⟨name, htokens⟩, he⟩, hlt, hle⟩
      exact ⟨⟨(name_of_tokens t name.2 htokens).2.1, he, hle⟩, name, htokens⟩
  | _ =>
    simp only [errors, Documented, longestList, List.append_eq_nil_iff, Nat.max_le, Nat.zero_le,
      and_self, *] <;> grind

end Phrase

end Moonbridge.Grammar
