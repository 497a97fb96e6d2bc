import Moonbridge.Proofs.Grammar.First
import Moonbridge.Proofs.Parser.Law

/-!
# Answers have derivations

Whatever a production answers is the tree of a phrase whose tokens are exactly those it has
passed, and it has recorded exactly the errors of the phrase. The phrase opens no more
productions than there was room for, and it is clear: the decisions that the parser makes at a
brace and at a name in a table exclude the other reading.
-/

namespace Moonbridge.Parser

open Grammar

/-- The tree `a` has a derivation from the tokens between `s` and `s'`, with at most `n` open
productions, and the errors recorded between them are those of the derivation. -/
def Derivable (n : Nat) (c : Category) (s : State) (a : c.Tree) (s' : State) : Prop :=
  ∃ d : Phrase c, d.tree = a ∧ d.nesting ≤ n ∧ d.Clear ∧ Passes s s' d.tokens d.errors

/-- Every answer of a production has a derivation. -/
def Sound (n : Nat) (c : Category) (p : Parse c.Tree) : Prop :=
  ∀ s a s', p.run s = .ok a s' → Derivable n c s a s'

/-- Every answer of a production has a derivation together with the token of kind `k` that was
taken in front of it. -/
def SoundBehind (n : Nat) (k : Kind) (c : Category) (p : Parse c.Tree) : Prop :=
  ∀ s t s₁ a s', t.kind = k → Passes s s₁ [t] [] → p.run s₁ = .ok a s' → Derivable n c s a s'

section Expressions

variable {x : Context} {n : Nat} {e : Parse Expr}

/-- A round of a chain takes an operator and an operand, or nothing. -/
theorem chainRound_ok {ops : List BinaryOp} {left : Expr} {r : Round Expr Expr} {s s' : State}
    (h : (chainRound ops e left).run s = .ok r s') :
    (∃ op s₁ right, op.op ∈ ops ∧ Passes s s₁ [op.token] [] ∧ e.run s₁ = .ok right s' ∧
      r = .again (.binary left op right)) ∨ (r = .done left ∧ s' = s) := by
  obtain ⟨o, s₁, ho, hrest⟩ := bind_eq_ok.mp h
  rcases acceptOperator_ok ho with ⟨op, rfl, hop, hpass⟩ | ⟨rfl, rfl⟩
  · obtain ⟨right, s₂, hright, hdone⟩ := bind_eq_ok.mp hrest
    cases hdone
    exact Or.inl ⟨op, s₁, right, hop, hpass, hright, rfl⟩
  · cases hrest
    exact Or.inr ⟨rfl, rfl⟩

/-- The chains of a tier are derived from the left. -/
theorem chain_sound {t : Nat} (hr : RegularExpr x e) (h : Sound n (.tier t) e) :
    Sound n (.tier (t + 1)) (chain (tierOps t) e) := by
  intro s a s' ha
  rw [chain_eq] at ha
  obtain ⟨first, s₁, hfirst, hloop⟩ := bind_eq_ok.mp ha
  have hstart : Derivable n (.tier (t + 1)) s first s₁ := by
    obtain ⟨d, rfl, hn, hc, hd⟩ := h s first s₁ hfirst
    exact ⟨.operand d, rfl, hn, hc, hd⟩
  refine repeated_invariant (Regular.advances (chainRound_regular (tierOps t) hr))
    (J := Derivable n (.tier (t + 1)) s) ?_ ?_ hloop hstart
  · rintro left s₁ next s₂ hround ⟨d, rfl, hn, hc, hd⟩
    rcases chainRound_ok hround with ⟨op, s₃, right, hop, hpass, hright, hnext⟩ | ⟨hnext, -⟩
    · cases hnext
      obtain ⟨d', rfl, hn', hc', hd'⟩ := h s₃ right s₂ hright
      refine ⟨.joined d op hop d', rfl, Nat.max_le.mpr ⟨hn, hn'⟩, ⟨hc, hc'⟩, ?_⟩
      simpa [Phrase.tokens, Phrase.errors] using hd.trans (hpass.trans hd')
    · cases hnext
  · rintro left s₁ answer s₂ hround hleft
    rcases chainRound_ok hround with ⟨op, s₃, right, -, -, -, hnext⟩ | ⟨hnext, rfl⟩
    · cases hnext
    · cases hnext
      exact hleft

/-- The answers of a tier have derivations if those of the tightest one have. -/
theorem tier_sound (hr : RegularExpr x e) (h : Sound n (.tier 0) e) (t : Nat) :
    Sound n (.tier t) (tier e t) := by
  induction t with
  | zero => exact h
  | succ t ih => exact chain_sound (tier_regular hr t) ih

end Expressions

section Lists

variable {x : Context} {α : Type} {m : α → α} {item : Parse α} {what : String} {s s' : State}

/-- A round of a list takes a comma and an item, or nothing. A surplus item is reported at the
token behind the comma. -/
theorem commaRound_ok {items : Array α} {r : Round (Array α) (List α)}
    (h : (commaRound item what items).run s = .ok r s') :
    (∃ comma s₁ a, comma.kind = .comma ∧ Passes s s₁ [comma] [] ∧
      item.run (s₁.pass [] (Phrase.surplus what items.size s₁.after)) = .ok a s' ∧
      r = .again (items.push a)) ∨ (r = .done items.toList ∧ s' = s) := by
  obtain ⟨o, s₁, ho, hrest⟩ := bind_eq_ok.mp h
  rcases accept_ok (by decide) ho with ⟨comma, rfl, hcomma, hpass⟩ | ⟨rfl, rfl, -⟩
  · refine Or.inl ⟨comma, s₁, ?_⟩
    simp only [] at hrest
    split at hrest
    · rename_i hfull
      obtain ⟨t, s₂, ht, hreport⟩ := bind_eq_ok.mp hrest
      obtain ⟨rfl, rest, hs⟩ := current_ok ht
      rw [bind_of_ok (run_report t _ s₂)] at hreport
      obtain ⟨a, s₃, ha, hdone⟩ := bind_eq_ok.mp hreport
      cases hdone
      refine ⟨a, hcomma, hpass, ?_, rfl⟩
      rw [Phrase.surplus, if_pos hfull, hs]
      exact ha
    · rename_i hfull
      obtain ⟨a, s₂, ha, hdone⟩ := bind_eq_ok.mp hrest
      cases hdone
      refine ⟨a, hcomma, hpass, ?_, rfl⟩
      rw [Phrase.surplus, if_neg hfull, State.pass_nil]
      exact ha
  · cases hrest
    exact Or.inr ⟨rfl, rfl⟩

/-- What holds of the first item and is kept by each further one holds of a whole list. -/
theorem commaSeparated_invariant (hr : Regular x m (fun _ => True) item item)
    {I : List α → State → Prop} {items : List α}
    (h : (commaSeparated item what).run s = .ok items s')
    (first : ∀ a s₁, item.run s = .ok a s₁ → I [a] s₁)
    (next : ∀ items s₁ comma s₂ a s₃, I items s₁ → comma.kind = .comma →
      Passes s₁ s₂ [comma] [] →
      item.run (s₂.pass [] (Phrase.surplus what items.length s₂.after)) = .ok a s₃ →
      I (items ++ [a]) s₃) : I items s' := by
  rw [commaSeparated_eq] at h
  obtain ⟨a, s₁, ha, hloop⟩ := bind_eq_ok.mp h
  refine repeated_invariant (Regular.advances (commaRound_regular hr what))
    (I := fun items s => I items.toList s) (J := I) ?_ ?_ hloop (first a s₁ ha)
  · rintro items s₁ items' s₂ hround hI
    rcases commaRound_ok hround with ⟨comma, s₃, a, hcomma, hpass, ha, hnext⟩ | ⟨hnext, -⟩
    · cases hnext
      rw [Array.toList_push]
      exact next _ _ comma s₃ a s₂ hI hcomma hpass ha
    · cases hnext
  · rintro items s₁ answer s₂ hround hI
    rcases commaRound_ok hround with ⟨comma, s₃, a, -, -, -, hnext⟩ | ⟨hnext, rfl⟩
    · cases hnext
    · cases hnext
      exact hI

end Lists

section Calls

variable {x : Context} {n : Nat} {e : Parse Expr}

/-- A surplus item is reported at its own first token. -/
theorem surplus_append {what : String} {count : Nat} {c : Category} {ts : List Token}
    (h : c.Begins ts) (rest : List Token) :
    Phrase.surplus what count (ts ++ rest) = Phrase.surplus what count ts := by
  obtain ⟨t, ts, rfl, -⟩ := h
  rfl

/-- Arguments have derivations if expressions have, too many of them included. -/
theorem arguments_sound (hr : RegularExpr x e) (h : Sound n .expression e) :
    Sound n .arguments (commaSeparated e "arguments") := by
  intro s args s' hargs
  refine commaSeparated_invariant hr (I := Derivable n .arguments s) hargs ?_ ?_
  · intro a s₁ ha
    obtain ⟨d, rfl, hn, hc, hd⟩ := h s a s₁ ha
    exact ⟨.argument d, rfl, hn, hc, hd⟩
  · rintro args s₁ comma s₂ a s₃ ⟨d, rfl, hn, hc, hd⟩ hcomma hpass ha
    obtain ⟨d', rfl, hn', hc', hd'⟩ := h _ a s₃ ha
    refine ⟨.moreArguments d ⟨comma, hcomma⟩ d', rfl, Nat.max_le.mpr ⟨hn, hn'⟩, ⟨hc, hc'⟩, ?_⟩
    have hsurplus : Passes s₂ s₃ d'.tokens
        (Phrase.surplus "arguments" d.tree.length d'.tokens ++ d'.errors) := by
      have hafter : s₂.after = d'.tokens ++ s₃.after := by simpa using hd'.after
      rw [hafter, surplus_append (d'.begins id)] at hd'
      exact ⟨hafter, by rw [hd'.state, State.pass_pass]; rfl⟩
    simpa [Phrase.tokens, Phrase.errors] using hd.trans (hpass.trans hsurplus)

/-- A call is derived from its callee and its arguments. -/
theorem finishCall_sound (hr : RegularExpr x e) (h : Sound n .expression e) {s s₁ s₂ s' : State}
    {callee answer : Expr} {opened : Token} (hcallee : Derivable n .call s callee s₁)
    (ho : opened.kind = .leftParen) (hopened : Passes s₁ s₂ [opened] [])
    (ha : (finishCall e callee).run s₂ = .ok answer s') : Derivable n .call s answer s' := by
  obtain ⟨d, rfl, hn, hc, hd⟩ := hcallee
  unfold finishCall at ha
  simp only [pure_bind] at ha
  rcases ifLooksAt_ok ha with ha | ha
  · obtain ⟨closed, s₃, hcl, hclosed, hdone⟩ := expect_bind_ok (by decide) ha
    cases hdone
    refine ⟨.called d ⟨opened, ho⟩ ⟨closed, hcl⟩, rfl, hn, hc, ?_⟩
    simpa [Phrase.tokens, Phrase.errors] using hd.trans (hopened.trans hclosed)
  · obtain ⟨args, s₃, hargs, hrest⟩ := bind_eq_ok.mp ha
    obtain ⟨closed, s₄, hcl, hclosed, hdone⟩ := expect_bind_ok (by decide) hrest
    cases hdone
    obtain ⟨d', rfl, hn', hc', hd'⟩ := arguments_sound hr h s₂ args s₃ hargs
    refine ⟨.calledWith d ⟨opened, ho⟩ d' ⟨closed, hcl⟩, rfl, Nat.max_le.mpr ⟨hn, hn'⟩,
      ⟨hc, hc'⟩, ?_⟩
    simpa [Phrase.tokens, Phrase.errors] using
      hd.trans (hopened.trans (hd'.trans hclosed))

/-- A round of a call extends the derivation, or ends the loop. -/
theorem callRound_sound (hr : RegularExpr x e) (h : Sound n .expression e) {s s₁ s' : State}
    {callee : Expr} {r : Round Expr Expr} (hcallee : Derivable n .call s callee s₁)
    (ha : (callRound e callee).run s₁ = .ok r s') :
    (∃ next, r = .again next ∧ Derivable n .call s next s') ∨ (r = .done callee ∧ s' = s₁) := by
  rcases ifAccepted_ok (by decide) ha with ⟨opened, s₂, ho, hopened, ha⟩ | ⟨ha, -⟩
  · obtain ⟨next, s₃, hnext, hdone⟩ := bind_eq_ok.mp ha
    cases hdone
    exact Or.inl ⟨next, rfl, finishCall_sound hr h hcallee ho hopened hnext⟩
  obtain ⟨d, rfl, hn, hc, hd⟩ := hcallee
  rcases ifAccepted_ok (by decide) ha with ⟨dot, s₂, ht, hdot, ha⟩ | ⟨ha, -⟩
  · obtain ⟨name, s₃, hk, hname, hdone⟩ := expect_bind_ok (by decide) ha
    cases hdone
    refine Or.inl ⟨_, rfl, .field d ⟨dot, ht⟩ ⟨name, hk⟩, rfl, hn, hc, ?_⟩
    simpa [Phrase.tokens, Phrase.errors] using hd.trans (hdot.trans hname)
  rcases ifAccepted_ok (by decide) ha with ⟨opened, s₂, ho, hopened, ha⟩ | ⟨ha, -⟩
  · obtain ⟨key, s₃, hkey, ha⟩ := bind_eq_ok.mp ha
    obtain ⟨closed, s₄, hcl, hclosed, hdone⟩ := expect_bind_ok (by decide) ha
    cases hdone
    obtain ⟨d', rfl, hn', hc', hd'⟩ := h s₂ key s₃ hkey
    refine Or.inl ⟨_, rfl, .index d ⟨opened, ho⟩ d' ⟨closed, hcl⟩, rfl,
      Nat.max_le.mpr ⟨hn, hn'⟩, ⟨hc, hc'⟩, ?_⟩
    simpa [Phrase.tokens, Phrase.errors] using
      hd.trans (hopened.trans (hd'.trans hclosed))
  · cases ha
    exact Or.inr ⟨rfl, rfl⟩

end Calls

section Tables

variable {x : Context} {n : Nat} {e : Parse Expr}

/-- An entry has a key exactly when its tokens say so; one without a key does not begin like
one with a name as key. -/
theorem entry_sound (h : Sound n .expression e) : Sound n .entry (entry e) := by
  intro s a s' ha
  cases hs : s.after with
  | nil =>
    unfold entry accept looksAt at ha
    simp [current_nil hs] at ha
  | cons t rest =>
    by_cases hb : t.kind = .leftBracket
    · rw [entry_bracketed hs hb] at ha
      obtain ⟨key, s₁, hkey, ha⟩ := bind_eq_ok.mp ha
      obtain ⟨closed, s₂, hcl, hclosed, ha⟩ := expect_bind_ok (by decide) ha
      obtain ⟨equals, s₃, heq, hequals, ha⟩ := expect_bind_ok (by decide) ha
      obtain ⟨value, s₄, hvalue, hdone⟩ := bind_eq_ok.mp ha
      cases hdone
      obtain ⟨d, rfl, hn, hc, hd⟩ := h _ key s₁ hkey
      obtain ⟨d', rfl, hn', hc', hd'⟩ := h s₃ value s' hvalue
      have hopened : Passes s (s.pass [t] []) [t] [] := ⟨by simp [hs], rfl⟩
      refine ⟨.keyed ⟨t, hb⟩ d ⟨closed, hcl⟩ ⟨equals, heq⟩ d', rfl, Nat.max_le.mpr ⟨hn, hn'⟩,
        ⟨hc, hc'⟩, ?_⟩
      simpa [Phrase.tokens, Phrase.errors] using
        hopened.trans (hd.trans (hclosed.trans (hequals.trans hd')))
    by_cases hnamed : ∃ u us, rest = u :: us ∧ t.kind = .identifier ∧ u.kind = .assign
    · obtain ⟨u, us, rfl, ht, hu⟩ := hnamed
      rw [entry_named hs ht hu] at ha
      obtain ⟨value, s₁, hvalue, hdone⟩ := bind_eq_ok.mp ha
      cases hdone
      obtain ⟨d, rfl, hn, hc, hd⟩ := h _ value s' hvalue
      have hkey : Passes s (s.pass [t, u] []) [t, u] [] := ⟨by simp [hs], rfl⟩
      exact ⟨.named ⟨t, ht⟩ ⟨u, hu⟩ d, rfl, hn, hc, hkey.trans hd⟩
    · rw [entry_positional hs hb fun u us hu hk => hnamed ⟨u, us, hu, hk⟩] at ha
      obtain ⟨value, s₁, hvalue, hdone⟩ := bind_eq_ok.mp ha
      cases hdone
      obtain ⟨d, rfl, hn, hc, hd⟩ := h _ value s' hvalue
      refine ⟨.positional d, rfl, hn, ⟨?_, hc⟩, hd⟩
      rintro ⟨name, equals, more, htokens, hname, hequals⟩
      have hafter := hd.after
      rw [hs, htokens] at hafter
      obtain ⟨rfl, hrest⟩ := List.cons.inj hafter
      exact hnamed ⟨equals, _, hrest, hname, hequals⟩

/-- What the entries of a table amount to: each was followed by a comma, but for the last one
perhaps. -/
def EntriesDerivable (n : Nat) (s : State) (entries : List Entry) (s' : State) : Prop :=
  Derivable n .fields s entries s' ∨ ∃ fields last s₁, entries = fields ++ [last] ∧
    Derivable n .fields s fields s₁ ∧ Derivable n .entry s₁ last s'

/-- A round of a table takes one entry and the comma behind it, if there is one. -/
theorem tableRound_sound (h : Sound n .expression e) {s s₁ s' : State} {entries : Array Entry}
    {r : Round (Array Entry) (Array Entry)} (hd : Derivable n .fields s entries.toList s₁)
    (ha : (tableRound e entries).run s₁ = .ok r s') :
    (∃ next, r = .again next ∧ Derivable n .fields s next.toList s') ∨
      (∃ answer, r = .done answer ∧ EntriesDerivable n s answer.toList s') := by
  rcases ifLooksAt_ok ha with ha | ha
  · cases ha
    exact Or.inr ⟨entries, rfl, Or.inl hd⟩
  · obtain ⟨last, s₂, hlast, ha⟩ := bind_eq_ok.mp ha
    have hentry := entry_sound h s₁ last s₂ hlast
    rcases ifAccepted_ok (by decide) ha with ⟨comma, s₃, hk, hcomma, ha⟩ | ⟨ha, -⟩
    · cases ha
      obtain ⟨d, hfields, hn, hc, hd⟩ := hd
      obtain ⟨d', rfl, hn', hc', hd'⟩ := hentry
      refine Or.inl ⟨_, rfl, .moreFields d d' ⟨comma, hk⟩, ?_, Nat.max_le.mpr ⟨hn, hn'⟩,
        ⟨hc, hc'⟩, ?_⟩
      · rw [Array.toList_push, ← hfields]
        rfl
      · simpa [Phrase.tokens, Phrase.errors] using hd.trans (hd'.trans hcomma)
    · cases ha
      exact Or.inr ⟨_, rfl, Or.inr ⟨_, last, s₁, Array.toList_push, hd, hentry⟩⟩

/-- A table is derived from its braces and its entries. -/
theorem table_sound (hr : RegularExpr x e) (h : Sound n .expression e) :
    SoundBehind n .leftBrace .primary (table e) := by
  intro s opened s₁ answer s' ho hopened ha
  rw [table_eq] at ha
  obtain ⟨entries, s₂, hloop, ha⟩ := bind_eq_ok.mp ha
  obtain ⟨closed, s₃, hcl, hclosed, hdone⟩ := expect_bind_ok (by decide) ha
  cases hdone
  have hstart : Derivable n .fields s₁ (#[] : Array Entry).toList s₁ :=
    ⟨.noFields, rfl, Nat.zero_le _, trivial, Passes.refl s₁⟩
  have hentries : EntriesDerivable n s₁ entries.toList s₂ := by
    refine repeated_invariant (Regular.advances (tableRound_regular hr))
      (I := fun entries s => Derivable n .fields s₁ entries.toList s)
      (J := fun entries s => EntriesDerivable n s₁ entries.toList s) ?_ ?_ hloop hstart
    · intro entries s₂ next s₃ hround hd
      rcases tableRound_sound h hd hround with ⟨next', hnext, hd'⟩ | ⟨answer, hnext, -⟩
      · cases hnext
        exact hd'
      · cases hnext
    · intro entries s₂ answer s₃ hround hd
      rcases tableRound_sound h hd hround with ⟨next', hnext, -⟩ | ⟨answer', hnext, hd'⟩
      · cases hnext
      · cases hnext
        exact hd'
  rcases hentries with ⟨d, hfields, hn, hc, hd⟩ | ⟨fields, last, s₄, hentries, hfields, hlast⟩
  · refine ⟨.table ⟨opened, ho⟩ d ⟨closed, hcl⟩, ?_, hn, hc, ?_⟩
    · rw [← hfields]
      rfl
    · simpa [Phrase.tokens, Phrase.errors] using hopened.trans (hd.trans hclosed)
  · obtain ⟨d, rfl, hn, hc, hd⟩ := hfields
    obtain ⟨d', rfl, hn', hc', hd'⟩ := hlast
    refine ⟨.tableLast ⟨opened, ho⟩ d d' ⟨closed, hcl⟩, ?_, Nat.max_le.mpr ⟨hn, hn'⟩,
      ⟨hc, hc'⟩, ?_⟩
    · rw [hentries]
      rfl
    · simpa [Phrase.tokens, Phrase.errors] using
        hopened.trans (hd.trans (hd'.trans hclosed))

/-- What stands at the tightest level has derivations if expressions have. -/
theorem primary_sound (hr : RegularExpr x e) (h : Sound n .expression e) :
    Sound n .primary (primary e) := by
  intro s a s' ha
  cases hs : s.after with
  | nil =>
    unfold primary at ha
    simp [current_nil hs] at ha
  | cons t rest =>
    have ht : Passes s (s.pass [t] []) [t] [] := ⟨by simp [hs], rfl⟩
    rw [run_primary e hs] at ha
    split at ha <;> rename_i hk
    · cases ha
      exact ⟨.literal t (Or.inl hk), rfl, Nat.zero_le _, trivial, ht⟩
    · cases ha
      exact ⟨.literal t (Or.inr hk), rfl, Nat.zero_le _, trivial, ht⟩
    · cases ha
      exact ⟨.nil ⟨t, hk⟩, rfl, Nat.zero_le _, trivial, ht⟩
    · cases ha
      exact ⟨.name ⟨t, hk⟩, rfl, Nat.zero_le _, trivial, ht⟩
    · exact table_sound hr h s t _ a s' hk ht ha
    · obtain ⟨inner, s₁, hinner, ha⟩ := bind_eq_ok.mp ha
      obtain ⟨closed, s₂, hcl, hclosed, hdone⟩ := expect_bind_ok (by decide) ha
      cases hdone
      obtain ⟨d, rfl, hn, hc, hd⟩ := h _ inner s₁ hinner
      refine ⟨.grouping ⟨t, hk⟩ d ⟨closed, hcl⟩, rfl, hn, hc, ?_⟩
      simpa [Phrase.tokens, Phrase.errors] using ht.trans (hd.trans hclosed)
    · cases ha

/-- A call is derived from its primary, one suffix after the other. -/
theorem call_sound (hr : RegularExpr x e) (h : Sound n .expression e) :
    Sound n .call (call e) := by
  intro s a s' ha
  rw [call_eq] at ha
  obtain ⟨first, s₁, hfirst, hloop⟩ := bind_eq_ok.mp ha
  have hstart : Derivable n .call s first s₁ := by
    obtain ⟨d, rfl, hn, hc, hd⟩ := primary_sound hr h s first s₁ hfirst
    exact ⟨.single d, rfl, hn, hc, hd⟩
  refine repeated_invariant (Regular.advances (callRound_regular hr))
    (J := Derivable n .call s) ?_ ?_ hloop hstart
  · intro callee s₁ next s₂ hround hcallee
    rcases callRound_sound hr h hcallee hround with ⟨next', hnext, hd⟩ | ⟨hnext, -⟩
    · cases hnext
      exact hd
    · cases hnext
  · intro callee s₁ answer s₂ hround hcallee
    rcases callRound_sound hr h hcallee hround with ⟨next', hnext, -⟩ | ⟨hnext, rfl⟩
    · cases hnext
    · cases hnext
      exact hcallee

end Tables

section Levels

variable {x : Context} {n : Nat} {e d : Parse Expr}

/-- A production that may not be opened has no answers. -/
theorem overrun_ne_ok {α : Type} {what : String} {s s' : State} {a : α} :
    (overrun what : Parse α).run s ≠ .ok a s' := by
  intro h
  obtain ⟨-, s₁, -, h⟩ := bind_eq_ok.mp h
  obtain ⟨t, s₂, -, h⟩ := bind_eq_ok.mp h
  cases h

/-- Too deep a nesting answers nothing that could lack a derivation. -/
theorem overrun_sound {c : Category} (what : String) : Sound n c (overrun what) :=
  fun _ _ _ h => absurd h overrun_ne_ok

/-- A production one level deeper answers as it does at that level. -/
theorem nested_ok {α : Type} {p : Parse α} {what : String} {s s' : State} {a : α}
    (h : (nested what p).run s = .ok a s') :
    ∃ s₁, p.run { s with depth := s.depth + 1 } = .ok a s₁ ∧
      s' = { s₁ with depth := s₁.depth - 1 } := by
  by_cases hs : s.depth < maxNesting
  · rw [run_nested hs] at h
    cases hr : p.run { s with depth := s.depth + 1 } with
    | error e s₁ => rw [hr] at h; cases h
    | ok b s₁ =>
      rw [hr] at h
      cases h
      exact ⟨s₁, rfl, rfl⟩
  · rw [run_nested_full (by omega)] at h
    exact absurd h overrun_ne_ok

/-- What is passed one level deeper is passed. -/
theorem Derivable.outside {c : Category} {a : c.Tree} {s s' : State}
    (h : Derivable n c { s with depth := s.depth + 1 } a s') :
    Derivable n c s a { s' with depth := s'.depth - 1 } := by
  obtain ⟨d, rfl, hn, hc, hd⟩ := h
  refine ⟨d, rfl, hn, hc, hd.after, ?_⟩
  rw [hd.state]
  simp [State.pass]

/-- Opening a level around a production leaves its answers as they are. -/
theorem nested_sound {c : Category} {p : Parse c.Tree} (what : String) (h : Sound n c p) :
    Sound n c (nested what p) := by
  intro s a s' ha
  obtain ⟨s₁, hr, rfl⟩ := nested_ok ha
  exact (h _ a s₁ hr).outside

/-- One more level of nesting leaves the derivations behind a token as they are. -/
theorem nested_soundBehind {c : Category} {k : Kind} {p : Parse c.Tree} {what : String}
    (h : SoundBehind n k c p) : SoundBehind n k c (nested what p) := by
  intro s t s₁ a s' ht hpass ha
  obtain ⟨s₂, hr, rfl⟩ := nested_ok ha
  have hinside :
      Passes { s with depth := s.depth + 1 } { s₁ with depth := s₁.depth + 1 } [t] [] := by
    refine ⟨hpass.after, ?_⟩
    rw [hpass.state]
    rfl
  exact (h _ t _ a s₂ ht hinside hr).outside

/-- A minus sign needs room for one more level than its operand. -/
theorem negation_sound (hr : RegularExpr x e)
    (hd : ∀ s a s', d.run s = .ok a s' → ∃ m, m < n ∧ Derivable m (.tier 0) s a s')
    (h : Sound n .expression e) : Sound n (.tier 0) (negation d e) := by
  intro s a s' ha
  obtain ⟨o, s₁, ho, hrest⟩ := bind_eq_ok.mp ha
  rcases accept_ok (by decide) ho with ⟨minus, rfl, hk, hminus⟩ | ⟨rfl, rfl, -⟩
  · obtain ⟨operand, s₂, hoperand, hdone⟩ := bind_eq_ok.mp hrest
    cases hdone
    obtain ⟨m, hm, d', rfl, hn, hc, hd'⟩ := hd s₁ operand s' hoperand
    exact ⟨.negated ⟨minus, hk⟩ d', rfl, Nat.lt_of_le_of_lt hn hm, hc, hminus.trans hd'⟩
  · obtain ⟨d', rfl, hn, hc, hd'⟩ := call_sound hr h s₁ a s' hrest
    exact ⟨.unsigned d', rfl, hn, hc, hd'⟩

/-- An assignment to anything but a name answers the target, and reports the equals sign. -/
theorem assignedValue_ok {equals : Token} {target answer : Expr} {s s' : State}
    (ha : (assignedValue d equals target).run s = .ok answer s') :
    ∃ value s₁, d.run s = .ok value s₁ ∧ s' = s₁.pass [] (Phrase.mistarget target equals) ∧
      answer = Phrase.assignedTree target value := by
  obtain ⟨value, s₁, hvalue, hrest⟩ := bind_eq_ok.mp ha
  refine ⟨value, s₁, hvalue, ?_⟩
  cases target with
  | name token =>
    cases hrest
    exact ⟨s'.pass_nil.symm, rfl⟩
  | _ =>
    dsimp only at hrest
    rw [bind_of_ok (run_report _ _ s₁)] at hrest
    cases hrest
    exact ⟨rfl, rfl⟩

/-- The expressions one level around `n`. -/
theorem assignment_sound (hr : RegularExpr x e) (h : Sound n (.tier 0) e)
    (hd : Sound n .expression d) : Sound (n + 1) .expression (assignment e d) := by
  intro s a s' ha
  rw [assignment_eq] at ha
  obtain ⟨target, s₁, htarget, hrest⟩ := bind_eq_ok.mp ha
  obtain ⟨t, rfl, hn, hc, ht⟩ := tier_sound hr h 6 s target s₁ htarget
  obtain ⟨o, s₂, ho, hassign⟩ := bind_eq_ok.mp hrest
  rcases accept_ok (by decide) ho with ⟨equals, rfl, hk, hequals⟩ | ⟨rfl, rfl, -⟩
  · obtain ⟨value, s₃, hvalue, rfl, htree⟩ := assignedValue_ok hassign
    obtain ⟨v, rfl, hn', hc', hv⟩ := hd s₂ value s₃ hvalue
    refine ⟨.assigned t ⟨equals, hk⟩ v, htree.symm,
      Nat.succ_le_succ (Nat.max_le.mpr ⟨hn, hn'⟩), ⟨hc, hc'⟩, ?_⟩
    have hreport : Passes s₃ (s₃.pass [] (Phrase.mistarget t.tree equals)) []
        (Phrase.mistarget t.tree equals) := ⟨rfl, rfl⟩
    simpa [Phrase.tokens, Phrase.errors] using ht.trans (hequals.trans (hv.trans hreport))
  · cases hassign
    exact ⟨.value t, rfl, Nat.succ_le_succ hn, hc, ht⟩

end Levels

section Statements

variable {x : Context} {n : Nat} {e : Parse Expr} {d st : Parse Stmt}

/-- A round of declarations takes one, or nothing. -/
theorem declarationRound_ok {stop : Kind} {stmts : Array Stmt} {s s' : State}
    {r : Round (Array Stmt) (List Stmt)}
    (h : (declarationRound d stop stmts).run s = .ok r s') :
    (∃ stmt, d.run s = .ok stmt s' ∧ r = .again (stmts.push stmt)) ∨
      (r = .done stmts.toList ∧ s' = s) := by
  obtain ⟨stopped, s₁, hstopped, hend⟩ := bind_eq_ok.mp h
  obtain ⟨rfl, -⟩ := looksAt_ok hstopped
  obtain ⟨ended, s₂, hended, hrest⟩ := bind_eq_ok.mp hend
  obtain ⟨rfl, -⟩ := atEnd_ok hended
  split at hrest
  · cases hrest
    exact Or.inr ⟨rfl, rfl⟩
  · obtain ⟨stmt, s₃, hstmt, hdone⟩ := bind_eq_ok.mp hrest
    cases hdone
    exact Or.inl ⟨stmt, hstmt, rfl⟩

/-- Declarations are derived one after the other. -/
theorem declarationsUntil_sound (hr : RegularStmt x d) (h : Sound n .declaration d)
    (stop : Kind) : Sound n .declarations (declarationsUntil d stop) := by
  intro s a s' ha
  rw [declarationsUntil_eq] at ha
  have hstart : Derivable n .declarations s (#[] : Array Stmt).toList s :=
    ⟨.noDeclarations, rfl, Nat.zero_le _, trivial, Passes.refl s⟩
  refine repeated_invariant (Regular.advances (declarationRound_regular hr stop))
    (I := fun stmts s' => Derivable n .declarations s stmts.toList s')
    (J := Derivable n .declarations s) ?_ ?_ ha hstart
  · rintro stmts s₁ next s₂ hround ⟨ds, hds, hn, hc, hd⟩
    rcases declarationRound_ok hround with ⟨stmt, hstmt, hnext⟩ | ⟨hnext, -⟩
    · cases hnext
      obtain ⟨d', rfl, hn', hc', hd'⟩ := h s₁ stmt s₂ hstmt
      refine ⟨.moreDeclarations ds d', ?_, Nat.max_le.mpr ⟨hn, hn'⟩, ⟨hc, hc'⟩, hd.trans hd'⟩
      rw [Array.toList_push, ← hds]
      rfl
    · cases hnext
  · intro stmts s₁ answer s₂ hround hd
    rcases declarationRound_ok hround with ⟨stmt, -, hnext⟩ | ⟨hnext, rfl⟩
    · cases hnext
    · cases hnext
      exact hd

/-- Parameters have derivations, too many of them included. -/
theorem parameters_sound {problem : Problem} :
    Sound n .parameters (commaSeparated (expect .identifier problem) "parameters") := by
  intro s params s' hparams
  have hr : Regular .alone id (fun _ => True) (expect .identifier problem)
      (expect .identifier problem) := expect_regular (by decide)
  refine commaSeparated_invariant hr (I := Derivable n .parameters s) hparams ?_ ?_
  · intro name s₁ hname
    obtain ⟨hk, hpass⟩ := expect_ok (by decide) hname
    exact ⟨.parameter ⟨name, hk⟩, rfl, Nat.zero_le _, trivial, hpass⟩
  · rintro params s₁ comma s₂ name s₃ ⟨d, rfl, hn, hc, hd⟩ hcomma hpass hname
    obtain ⟨hk, hname⟩ := expect_ok (by decide) hname
    refine ⟨.moreParameters d ⟨comma, hcomma⟩ ⟨name, hk⟩, rfl, Nat.zero_le _, trivial, ?_⟩
    have hsurplus : Passes s₂ s₃ [name] (Phrase.surplus "parameters" d.tree.length [name]) := by
      have hafter : s₂.after = [name] ++ s₃.after := by simpa using hname.after
      rw [hafter, surplus_append (Category.begins_cons (c := .parameters) hk (by decide) [])]
        at hname
      exact ⟨hafter, by rw [hname.state, State.pass_pass]; simp⟩
    simpa [Phrase.tokens, Phrase.errors] using hd.trans (hpass.trans hsurplus)

/-- A function has a derivation with its keyword if declarations have. -/
theorem functionRest_sound (hr : RegularStmt x d) (h : Sound n .declaration d) :
    SoundBehind (n + 1) .functionKeyword .declaration (functionRest d) := by
  intro s keyword s₁ answer s' hk hkeyword ha
  unfold functionRest at ha
  simp only [discard_bind, pure_bind] at ha
  obtain ⟨name, s₂, hnk, hname, ha⟩ := expect_bind_ok (by decide) ha
  obtain ⟨opened, s₃, ho, hopened, ha⟩ := expect_bind_ok (by decide) ha
  have hbody := declarationsUntil_sound hr h .endKeyword
  rcases ifLooksAt_ok ha with ha | ha
  · obtain ⟨closed, s₄, hcl, hclosed, ha⟩ := expect_bind_ok (by decide) ha
    obtain ⟨body, s₅, hbodyRun, ha⟩ := bind_eq_ok.mp ha
    obtain ⟨ended, s₆, he, hended, hdone⟩ := expect_bind_ok (by decide) ha
    cases hdone
    obtain ⟨ds, rfl, hn, hc, hds⟩ := hbody s₄ body s₅ hbodyRun
    refine ⟨.procedure ⟨keyword, hk⟩ ⟨name, hnk⟩ ⟨opened, ho⟩ ⟨closed, hcl⟩ ds ⟨ended, he⟩, rfl,
      Nat.succ_le_succ hn, hc, ?_⟩
    simpa [Phrase.tokens, Phrase.errors] using
      hkeyword.trans (hname.trans (hopened.trans (hclosed.trans (hds.trans hended))))
  · obtain ⟨params, s₄, hparams, ha⟩ := bind_eq_ok.mp ha
    obtain ⟨closed, s₅, hcl, hclosed, ha⟩ := expect_bind_ok (by decide) ha
    obtain ⟨body, s₆, hbodyRun, ha⟩ := bind_eq_ok.mp ha
    obtain ⟨ended, s₇, he, hended, hdone⟩ := expect_bind_ok (by decide) ha
    cases hdone
    obtain ⟨ps, rfl, -, -, hps⟩ := parameters_sound (n := n) s₃ params s₄ hparams
    obtain ⟨ds, rfl, hn, hc, hds⟩ := hbody s₅ body s₆ hbodyRun
    refine ⟨.function ⟨keyword, hk⟩ ⟨name, hnk⟩ ⟨opened, ho⟩ ps ⟨closed, hcl⟩ ds ⟨ended, he⟩, rfl,
      Nat.succ_le_succ hn, hc, ?_⟩
    simpa [Phrase.tokens, Phrase.errors] using
      hkeyword.trans (hname.trans (hopened.trans
        (hps.trans (hclosed.trans (hds.trans hended)))))

/-- A local variable has a derivation with its keyword if expressions have. -/
theorem localVariable_sound (h : Sound n .expression e) :
    SoundBehind n .localKeyword .declaration (localVariable e) := by
  intro s keyword s₁ answer s' hk hkeyword ha
  unfold localVariable at ha
  simp only [discard_bind, pure_bind] at ha
  obtain ⟨name, s₂, hnk, hname, ha⟩ := expect_bind_ok (by decide) ha
  rcases ifAccepted_ok (by decide) ha with ⟨equals, s₃, hq, hequals, ha⟩ | ⟨ha, -⟩
  · obtain ⟨initial, s₄, hinitial, ha⟩ := bind_eq_ok.mp ha
    obtain ⟨semicolon, s₅, hs, hsemicolon, hdone⟩ := expect_bind_ok (by decide) ha
    cases hdone
    obtain ⟨d, rfl, hn, hc, hd⟩ := h s₃ initial s₄ hinitial
    refine ⟨.initialized ⟨keyword, hk⟩ ⟨name, hnk⟩ ⟨equals, hq⟩ d ⟨semicolon, hs⟩, rfl, hn, hc, ?_⟩
    simpa [Phrase.tokens, Phrase.errors] using
      hkeyword.trans (hname.trans (hequals.trans (hd.trans hsemicolon)))
  · obtain ⟨semicolon, s₅, hs, hsemicolon, hdone⟩ := expect_bind_ok (by decide) ha
    cases hdone
    refine ⟨.declared ⟨keyword, hk⟩ ⟨name, hnk⟩ ⟨semicolon, hs⟩, rfl, Nat.zero_le _, trivial, ?_⟩
    simpa [Phrase.tokens, Phrase.errors] using hkeyword.trans (hname.trans hsemicolon)

/-- A conditional has a derivation with its keyword if its parts have. -/
theorem conditional_sound (h : Sound n .expression e) (hst : Sound n .statement st) :
    SoundBehind (n + 1) .ifKeyword .statement (conditional e st) := by
  intro s keyword s₁ answer s' hk hkeyword ha
  unfold conditional at ha
  simp only [discard_bind, pure_bind] at ha
  obtain ⟨cond, s₂, hcond, ha⟩ := bind_eq_ok.mp ha
  obtain ⟨thenWord, s₃, ht, hthen, ha⟩ := expect_bind_ok (by decide) ha
  obtain ⟨body, s₄, hbody, ha⟩ := bind_eq_ok.mp ha
  obtain ⟨c, rfl, hn, hc, hcd⟩ := h s₁ cond s₂ hcond
  obtain ⟨b, rfl, hn', hc', hbd⟩ := hst s₃ body s₄ hbody
  rcases ifAccepted_ok (by decide) ha with ⟨elseWord, s₅, hl, helse, ha⟩ | ⟨ha, -⟩
  · obtain ⟨otherwise, s₆, hotherwise, ha⟩ := bind_eq_ok.mp ha
    obtain ⟨ended, s₇, he, hended, hdone⟩ := expect_bind_ok (by decide) ha
    cases hdone
    obtain ⟨o, rfl, hn'', hc'', hod⟩ := hst s₅ otherwise s₆ hotherwise
    refine ⟨.alternative ⟨keyword, hk⟩ c ⟨thenWord, ht⟩ b ⟨elseWord, hl⟩ o ⟨ended, he⟩, rfl,
      Nat.succ_le_succ (Nat.max_le.mpr ⟨Nat.max_le.mpr ⟨hn, hn'⟩, hn''⟩), ⟨hc, hc', hc''⟩, ?_⟩
    simpa [Phrase.tokens, Phrase.errors] using
      hkeyword.trans (hcd.trans (hthen.trans (hbd.trans (helse.trans (hod.trans hended)))))
  · obtain ⟨ended, s₇, he, hended, hdone⟩ := expect_bind_ok (by decide) ha
    cases hdone
    refine ⟨.conditional ⟨keyword, hk⟩ c ⟨thenWord, ht⟩ b ⟨ended, he⟩, rfl,
      Nat.succ_le_succ (Nat.max_le.mpr ⟨hn, hn'⟩), ⟨hc, hc'⟩, ?_⟩
    simpa [Phrase.tokens, Phrase.errors] using
      hkeyword.trans (hcd.trans (hthen.trans (hbd.trans hended)))

/-- A loop has a derivation with its keyword if its parts have. -/
theorem whileLoop_sound (h : Sound n .expression e) (hst : Sound n .statement st) :
    SoundBehind (n + 1) .whileKeyword .statement (whileLoop e st) := by
  intro s keyword s₁ answer s' hk hkeyword ha
  unfold whileLoop at ha
  simp only [discard_bind] at ha
  obtain ⟨cond, s₂, hcond, ha⟩ := bind_eq_ok.mp ha
  obtain ⟨doWord, s₃, ht, hdo, ha⟩ := expect_bind_ok (by decide) ha
  obtain ⟨body, s₄, hbody, ha⟩ := bind_eq_ok.mp ha
  obtain ⟨ended, s₅, he, hended, hdone⟩ := expect_bind_ok (by decide) ha
  cases hdone
  obtain ⟨c, rfl, hn, hc, hcd⟩ := h s₁ cond s₂ hcond
  obtain ⟨b, rfl, hn', hc', hbd⟩ := hst s₃ body s₄ hbody
  refine ⟨.loop ⟨keyword, hk⟩ c ⟨doWord, ht⟩ b ⟨ended, he⟩, rfl,
    Nat.succ_le_succ (Nat.max_le.mpr ⟨hn, hn'⟩), ⟨hc, hc'⟩, ?_⟩
  simpa [Phrase.tokens, Phrase.errors] using
    hkeyword.trans (hcd.trans (hdo.trans (hbd.trans hended)))

/-- A return has a derivation with its keyword if its value has. -/
theorem returnedBy_sound (h : Sound n .expression e) {s s₁ s' : State} {keyword : Token}
    {answer : Stmt} (hk : keyword.kind = .returnKeyword) (hkeyword : Passes s s₁ [keyword] [])
    (ha : (returnedBy keyword e).run s₁ = .ok answer s') :
    Derivable (n + 1) .statement s answer s' := by
  unfold returnedBy at ha
  simp only [pure_bind] at ha
  rcases ifLooksAt_ok ha with ha | ha
  · obtain ⟨semicolon, s₂, hs, hsemicolon, hdone⟩ := expect_bind_ok (by decide) ha
    cases hdone
    exact ⟨.returned ⟨keyword, hk⟩ ⟨semicolon, hs⟩, rfl, Nat.succ_le_succ (Nat.zero_le _), trivial,
      hkeyword.trans hsemicolon⟩
  · obtain ⟨value, s₂, hvalue, ha⟩ := bind_eq_ok.mp ha
    obtain ⟨semicolon, s₃, hs, hsemicolon, hdone⟩ := expect_bind_ok (by decide) ha
    cases hdone
    obtain ⟨d, rfl, hn, hc, hd⟩ := h s₁ value s₂ hvalue
    refine ⟨.returnedValue ⟨keyword, hk⟩ d ⟨semicolon, hs⟩, rfl, Nat.succ_le_succ hn, hc, ?_⟩
    simpa [Phrase.tokens, Phrase.errors] using hkeyword.trans (hd.trans hsemicolon)

/-- Statements have derivations one level above what they consist of. -/
theorem statementRest_sound (hr : RegularStmt x d) (h : Sound n .expression e)
    (hst : Sound n .statement st) (hd : Sound n .declaration d) :
    Sound (n + 1) .statement (statementRest e st d) := by
  intro s answer s' ha
  rw [statementRest_eq] at ha
  rcases ifAccepted_ok (by decide) ha with ⟨keyword, s₁, hk, hkeyword, ha⟩ | ⟨ha, -⟩
  · exact conditional_sound h hst s keyword s₁ answer s' hk hkeyword ha
  rcases ifAccepted_ok (by decide) ha with ⟨keyword, s₁, hk, hkeyword, ha⟩ | ⟨ha, -⟩
  · exact whileLoop_sound h hst s keyword s₁ answer s' hk hkeyword ha
  rcases ifAccepted_ok (by decide) ha with ⟨opened, s₁, ho, hopened, ha⟩ | ⟨ha, hbrace⟩
  · obtain ⟨body, s₂, hbody, hdone⟩ := bind_eq_ok.mp ha
    cases hdone
    unfold block at hbody
    simp only [discard_bind] at hbody
    obtain ⟨stmts, s₃, hstmts, hbody⟩ := bind_eq_ok.mp hbody
    obtain ⟨closed, s₄, hcl, hclosed, hdone⟩ := expect_bind_ok (by decide) hbody
    cases hdone
    obtain ⟨ds, rfl, hn, hc, hds⟩ := declarationsUntil_sound hr hd .rightBrace s₁ body s₃ hstmts
    refine ⟨.block ⟨opened, ho⟩ ds ⟨closed, hcl⟩, rfl, Nat.succ_le_succ hn, hc, ?_⟩
    simpa [Phrase.tokens, Phrase.errors] using hopened.trans (hds.trans hclosed)
  obtain ⟨o, s₁, hreturn, hrest⟩ := bind_eq_ok.mp ha
  rcases accept_ok (by decide) hreturn with ⟨keyword, rfl, hk, hkeyword⟩ | ⟨rfl, rfl, -⟩
  · exact returnedBy_sound h hk hkeyword hrest
  · simp only [Option.elim_none] at hrest
    unfold expressionStatement at hrest
    simp only [discard_bind] at hrest
    obtain ⟨expr, s₂, hexpr, hend⟩ := bind_eq_ok.mp hrest
    obtain ⟨semicolon, s₃, hs, hsemicolon, hdone⟩ := expect_bind_ok (by decide) hend
    cases hdone
    obtain ⟨d', rfl, hn, hc, hd'⟩ := h s₁ expr s₂ hexpr
    refine ⟨.expressed d' ⟨semicolon, hs⟩, rfl, Nat.succ_le_succ hn, ⟨?_, hc⟩, ?_⟩
    · rintro ⟨brace, more, htokens, hk⟩
      obtain ⟨t, rest, ht, hne⟩ := hbrace
      have hafter := hd'.after
      rw [ht, htokens] at hafter
      obtain ⟨rfl, -⟩ := List.cons.inj hafter
      exact hne hk
    · simpa [Phrase.tokens, Phrase.errors] using hd'.trans hsemicolon

/-- Declarations have derivations if all that they may consist of has. -/
theorem declarationOf_sound {f : Parse Stmt} (h : Sound n .expression e)
    (hf : SoundBehind n .functionKeyword .declaration f) (hst : Sound n .statement st) :
    Sound n .declaration (declarationOf e f st) := by
  intro s answer s' ha
  rcases ifAccepted_ok (by decide) ha with ⟨keyword, s₁, hk, hkeyword, ha⟩ | ⟨ha, -⟩
  · exact hf s keyword s₁ answer s' hk hkeyword ha
  rcases ifAccepted_ok (by decide) ha with ⟨keyword, s₁, hk, hkeyword, ha⟩ | ⟨ha, -⟩
  · exact localVariable_sound h s keyword s₁ answer s' hk hkeyword ha
  · obtain ⟨d, rfl, hn, hc, hd⟩ := hst s answer s' ha
    exact ⟨.stated d, rfl, hn, hc, hd⟩

end Statements

/-- The answers of the recursive productions have derivations that fit in the room that is
left. -/
theorem rules_sound (n : Nat) :
    Sound n (.tier 0) (rules n).unary ∧ Sound n .expression (rules n).expression ∧
      SoundBehind n .functionKeyword .declaration (rules n).function ∧
      Sound n .statement (rules n).statement := by
  induction n with
  | zero =>
    refine ⟨negation_sound (x := .alone) (overrun_regular _) ?_ (overrun_sound _),
      overrun_sound _, ?_, overrun_sound _⟩
    · exact fun s a s' ha => absurd ha overrun_ne_ok
    · exact fun s t s₁ a s' _ _ ha => absurd ha overrun_ne_ok
  | succ n ih =>
    obtain ⟨hu, he, hf, hst⟩ := ih
    obtain ⟨hru, hre, hrf, hrst⟩ := rules_regular .alone n
    have hd := declarationOf_sound he hf hst
    have hrd := declarationOf_regular hre hrf hrst
    have he' := nested_sound "expression" (assignment_sound hru hu he)
    have hre' := nested_regular "expression" (assignment_regular hru hre)
    refine ⟨negation_sound hre' ?_ he', he', nested_soundBehind (functionRest_sound hrd hd),
      nested_sound _ (statementRest_sound hrd he hst hd)⟩
    exact fun s a s' ha => ⟨n, Nat.lt_succ_self n, nested_sound _ hu s a s' ha⟩

/-- Every answer of a declaration has a derivation. -/
theorem declaration_sound (n : Nat) : Sound n .declaration (rules n).declaration := by
  obtain ⟨-, he, hf, hst⟩ := rules_sound n
  exact declarationOf_sound he hf hst

end Moonbridge.Parser
