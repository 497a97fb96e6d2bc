import Moonbridge.Proofs.Grammar.Limits
import Moonbridge.Proofs.Parser.Completeness

/-!
# Phrases that nest too deeply

In front of a phrase that needs more levels than may be opened, each production fails at the limit
of nesting, and what it records before is about limits too. The parts of the phrase in front of
the one that nests too deeply are read, so that the failure is reached and no other comes first.
-/

namespace Moonbridge.Parser

open Grammar

/-- With `n` levels of room, in front of `ts` and a token that `P` allows, `p` fails at the limit
of nesting; the errors recorded up to there are about limits. -/
def Overruns {α : Type} (n : Nat) (P : Kind → Prop) (p : Parse α) (ts : List Token) : Prop :=
  ∀ s rest, s.depth + n = maxNesting → s.after = ts ++ rest → Leads P rest →
    ∃ what t s' es, p.run s = .error (.rejected ⟨.tooDeep what, t⟩) s' ∧
      s'.errors = s.errors ++ es.toArray ∧ Limits es

namespace Overruns

variable {α β : Type} {n : Nat} {P Q : Kind → Prop} {p q : Parse α} {f : α → Parse β}
  {ts us : List Token} {es : List ParseError} {k : Kind}

/-- Where no level may be opened, opening one fails. -/
theorem overrun (what : String) (P : Kind → Prop) (ts : List Token) :
    Overruns 0 P (Parser.overrun what : Parse α) ts := by
  rintro s rest - hs ⟨next, more, rfl, -⟩
  obtain ⟨t, after, ht⟩ : ∃ t after, s.after = t :: after :=
    List.exists_cons_of_ne_nil (by simp [hs])
  refine ⟨what, t, { s with depth := s.depth + 1 }, [], ?_, by simp, by simp⟩
  unfold Parser.overrun
  simp [current_cons (s := { s with depth := s.depth + 1 }) ht]

/-- A production that opens one more level nests too deeply if what it opens the level for does. -/
theorem nested (h : Overruns n P p ts) (what : String) :
    Overruns (n + 1) P (Parser.nested what p) ts := by
  intro s rest hd hs hrest
  have hroom : s.depth < maxNesting := by omega
  obtain ⟨what', t, s', es, hrun, herrors, hes⟩ :=
    h { s with depth := s.depth + 1 } rest (by simp only []; omega) hs hrest
  refine ⟨what', t, s', es, ?_, herrors, hes⟩
  rw [run_nested hroom, hrun]

/-- What fails first in a sequence. -/
theorem bind (h : Overruns n P p ts) (f : α → Parse β) : Overruns n P (p >>= f) ts := by
  intro s rest hd hs hrest
  obtain ⟨what, t, s', es, hrun, herrors, hes⟩ := h s rest hd hs hrest
  exact ⟨what, t, s', es, bind_eq_error.mpr (Or.inl hrun), herrors, hes⟩

/-- A loop whose next round fails. -/
theorem round {round : α → Parse (Round α β)} {a : α} (h : Overruns n P (round a) ts) :
    Overruns n P (repeated round a) ts := by
  intro s rest hd hs hrest
  obtain ⟨what, t, s', es, hrun, herrors, hes⟩ := h s rest hd hs hrest
  exact ⟨what, t, s', es, repeated_error hrun, herrors, hes⟩

/-- Fewer tokens may follow. -/
theorem mono (h : Overruns n P p ts) (hQ : ∀ k, Q k → P k) : Overruns n Q p ts :=
  fun s rest hd hs hrest => h s rest hd hs (hrest.mono hQ)

/-- In front of one more piece, which may follow. -/
theorem append (h : Overruns n P p ts) (hlead : Leads P us) : Overruns n Q p (ts ++ us) := by
  intro s rest hd hs _
  rw [List.append_assoc] at hs
  exact h s (us ++ rest) hd hs (hlead.append rest)

/-- Behind a piece that is read. -/
theorem behind (h : Continues n P p q ts es) (hes : Limits es) (h' : Overruns n Q q us)
    (hlead : ∀ rest, Leads Q rest → Leads P (us ++ rest)) : Overruns n Q p (ts ++ us) := by
  intro s rest hd hs hrest
  rw [List.append_assoc] at hs
  rw [h s (us ++ rest) hd hs (hlead rest hrest)]
  obtain ⟨what, t, s', fs, hrun, herrors, hfs⟩ :=
    h' (s.pass ts es) rest hd (State.pass_after_of_append hs es) hrest
  exact ⟨what, t, s', es ++ fs, hrun, by rw [herrors]; simp, limits_append.mpr ⟨hes, hfs⟩⟩

/-- Behind a piece that anything may follow. -/
theorem andThen (h : Continues n Anything p q ts es) (hes : Limits es) (h' : Overruns n Q q us) :
    Overruns n Q p (ts ++ us) := by
  refine behind h hes h' fun rest hrest => ?_
  cases us with
  | nil => exact hrest.mono fun _ _ => trivial
  | cons u us => exact ⟨u, us ++ rest, rfl, trivial⟩

/-- Of two parts in a row one nests too deeply. The first one that does fails, and a second one is
reached because the first one is read. -/
theorem inOrder {a b : Nat} (hn : n < max a b) (hfirst : n < a → Overruns n P p ts)
    (hread : a ≤ n → Continues n P p q ts es) (hes : Limits es)
    (hsecond : n < b → Overruns n Q q us) (hlead : Leads P us) : Overruns n Q p (ts ++ us) := by
  rcases Nat.lt_or_ge n a with ha | ha
  · exact (hfirst ha).append hlead
  · have hb : n < b := by omega
    exact .behind (hread ha) hes (hsecond hb) fun rest _ => hlead.append rest

section Cursor

variable {t : Token} {problem : Problem} {g : Token → Parse β} {g' : Option Token → Parse β}
  {c : Bool → Parse β}

/-- Behind an expected token. -/
theorem expecting (ht : t.kind = k) (hk : k ≠ .endOfInput) (h : Overruns n P (g t) us) :
    Overruns n P (Parser.expect k problem >>= g) (t :: us) :=
  andThen ((Continues.expect ht hk n Anything).bind_pure g) limits_nil h

/-- Behind an accepted token. -/
theorem accepting (ht : t.kind = k) (hk : k ≠ .endOfInput) (h : Overruns n P (g' (some t)) us) :
    Overruns n P (Parser.accept k >>= g') (t :: us) :=
  andThen ((Continues.accept ht hk n Anything).bind_pure g') limits_nil h

/-- In front of another token than the one that would be accepted. -/
theorem passingBy (h : Overruns n P (g' none) us) (hlead : Leads (· ≠ k) us) :
    Overruns n P (Parser.accept k >>= g') us :=
  behind ((Continues.notAccept k n).bind_pure g') limits_nil h fun rest _ => hlead.append rest

/-- In front of another token than the one that is looked for. -/
theorem lookingPast (h : Overruns n P (c false) us) (hlead : Leads (· ≠ k) us) :
    Overruns n P (Parser.looksAt k >>= c) us :=
  behind ((Continues.notLooksAt k n).bind_pure c) limits_nil h fun rest _ => hlead.append rest

/-- In front of the token that is looked for. -/
theorem lookingAt (h : Overruns n P (c true) us) (hlead : Leads (· = k) us) :
    Overruns n P (Parser.looksAt k >>= c) us :=
  behind ((Continues.looksAt k n).bind_pure c) limits_nil h fun rest _ => hlead.append rest

end Cursor

end Overruns

section Expressions

variable {n : Nat} {P Q : Kind → Prop} {e : Parse Expr} {ts us : List Token} {t : Token}

/-- A grouping nests too deeply if the expression in it does. -/
theorem primary_grouping_overruns (ht : t.kind = .leftParen) (h : Overruns n P e ts) :
    Overruns n P (primary e) (t :: ts) :=
  .andThen (primary_paren ht) limits_nil (h.bind _)

/-- A table nests too deeply if one of its rounds does. -/
theorem primary_table_overruns (ht : t.kind = .leftBrace)
    (h : Overruns n P (repeated (tableRound e) #[]) ts) : Overruns n P (primary e) (t :: ts) := by
  refine .andThen (primary_opened ht) limits_nil ?_
  rw [table_eq]
  exact h.bind _

/-- A round of a table nests too deeply if its entry does. -/
theorem tableRound_overruns (entries : Array Entry) (h : Overruns n P (entry e) ts)
    (hlead : Leads (· ≠ .rightBrace) ts) : Overruns n P (tableRound e entries) ts :=
  .lookingPast (h.bind _) hlead

/-- An entry without a key nests too deeply if its value does. -/
theorem entry_positional_overruns (hkey : ¬ Phrase.StartsAsKey ts)
    (hlead : Leads (· ≠ .leftBracket) ts) (h : Overruns n EndsExpression e ts) :
    Overruns n EndsExpression (entry e) ts := by
  intro s rest hd hs hrest
  rw [run_entry_positional hkey hlead hs hrest]
  exact h.bind _ s rest hd hs hrest

/-- One more item behind a comma. -/
theorem commaRound_overruns {α : Type} {item : Parse α} {what : String}
    (hwhat : what = "arguments" ∨ what = "parameters") (ht : t.kind = .comma) (items : Array α)
    (h : Overruns n P item ts) : Overruns n P (commaRound item what items) (t :: ts) := by
  refine .accepting ht (by decide) ?_
  simp only []
  split
  · -- The list is full, which is reported at the first token of the item.
    intro s rest hd hs hrest
    obtain ⟨u, more, hu⟩ : ∃ u more, s.after = u :: more := by
      obtain ⟨v, vs, rfl, -⟩ := hrest
      exact List.exists_cons_of_ne_nil (by simp [hs])
    have hreported : Limits [⟨.tooMany what, u⟩] := by
      intro e he
      obtain rfl := List.mem_singleton.mp he
      exact hwhat
    rw [bind_of_ok (current_cons hu), bind_of_ok (run_report u _ s)]
    obtain ⟨deep, v, s', es, hrun, herrors, hes⟩ :=
      h.bind (fun a => pure (Round.again (items.push a) : Round (Array α) (List α)))
        (s.pass [] [⟨.tooMany what, u⟩]) rest hd hs hrest
    exact ⟨deep, v, s', _ :: es, hrun, by rw [herrors]; simp,
      limits_append.mpr ⟨hreported, hes⟩⟩
  · exact h.bind _

/-- A call nests too deeply if its arguments do. -/
theorem callRound_call_overruns (callee : Expr) (ht : t.kind = .leftParen)
    (hlead : Leads (· ≠ .rightParen) ts)
    (h : Overruns n P (commaSeparated e "arguments") ts) :
    Overruns n P (callRound e callee) (t :: ts) := by
  have hfinish : Overruns n P (finishCall e callee) ts := .lookingPast (h.bind _) hlead
  exact .accepting ht (by decide) (hfinish.bind _)

/-- An index nests too deeply if the expression in the brackets does. -/
theorem callRound_index_overruns (callee : Expr) (ht : t.kind = .leftBracket)
    (h : Overruns n P e ts) : Overruns n P (callRound e callee) (t :: ts) := by
  refine .passingBy ?_ (.cons ht (by decide) _)
  refine .passingBy ?_ (.cons ht (by decide) _)
  exact .accepting ht (by decide) (h.bind _)

/-- A round of a chain nests too deeply if the operand behind the operator does. -/
theorem chainRound_overruns {ops : List BinaryOp} {op : Operator} (left : Expr) (hop : op.op ∈ ops)
    (h : Overruns n P e ts) : Overruns n P (chainRound ops e left) (op.token :: ts) :=
  .andThen ((Continues.operator hop n Anything).bind_pure _) limits_nil (h.bind _)

end Expressions

section Statements

variable {n : Nat} {P Q : Kind → Prop} {e : Parse Expr} {st d : Parse Stmt} {a : Expr} {b : Stmt}
  {ts us : List Token} {es fs : List ParseError} {t u : Token}

/-- A condition and what stands behind its keyword, one of which nests too deeply. -/
theorem condition_overruns {β : Type} {f : Expr → Parse β} {k : Kind} {problem : Problem}
    {x y : Nat} (hk : EndsExpression k ∧ k ≠ .endOfInput) (ht : t.kind = k) (hn : n < max x y)
    (hcond : n < x → Overruns n EndsExpression e ts)
    (hread : x ≤ n → Reads n EndsExpression e a ts es) (hes : Limits es)
    (hrest : n < y → Overruns n P (f a) us) :
    Overruns n P (e >>= fun cond => expect k problem >>= fun _ => f cond) (ts ++ t :: us) :=
  .inOrder hn (fun h => (hcond h).bind _) (fun h => (hread h).bind_pure _) hes
    (fun h => .expecting ht hk.2 (hrest h)) (.cons ht hk.1 us)

/-- Of the two branches of a conditional one nests too deeply. -/
theorem branches_overruns {x y : Nat} {vs : List Token} (hu : u.kind = .elseKeyword)
    (hn : n < max x y) (hfirst : n < x → Overruns n Anything st us)
    (hread : x ≤ n → Reads n Anything st b us fs) (hfs : Limits fs)
    (hsecond : n < y → Overruns n P st vs) :
    Overruns n P (branches st a) (us ++ u :: vs) := by
  unfold branches
  simp only [pure_bind]
  exact .inOrder hn (fun h => (hfirst h).bind _) (fun h => (hread h).bind_pure _) hfs
    (fun h => .accepting hu (by decide) ((hsecond h).bind _)) ⟨u, vs, rfl, trivial⟩

/-- A local variable nests too deeply if its value does. -/
theorem localVariable_overruns {name equals : Token} (hn : name.kind = .identifier)
    (hq : equals.kind = .assign) (h : Overruns n P e ts) :
    Overruns n P (localVariable e) (name :: equals :: ts) := by
  unfold localVariable
  simp only [discard_bind, pure_bind]
  exact .expecting hn (by decide) (.accepting hq (by decide) (h.bind _))

/-- A function nests too deeply if its body does. -/
theorem functionBody_overruns {name : Token} {params : List Token} (ht : t.kind = .rightParen)
    (h : Overruns n P (declarationsUntil d .endKeyword) ts) :
    Overruns n P (functionBody d name params) (t :: ts) :=
  .expecting ht (by decide) (h.bind _)

/-- A function without parameters nests too deeply if its body does. -/
theorem functionRest_overruns_none {name opened : Token} (hn : name.kind = .identifier)
    (ho : opened.kind = .leftParen) (ht : t.kind = .rightParen)
    (h : Overruns n P (declarationsUntil d .endKeyword) ts) :
    Overruns n P (functionRest d) (name :: opened :: t :: ts) := by
  unfold functionRest
  simp only [discard_bind, pure_bind]
  refine .expecting hn (by decide) (.expecting ho (by decide) ?_)
  exact .lookingAt (functionBody_overruns ht h) ⟨t, _, rfl, ht⟩

/-- A function with parameters nests too deeply if its body does, and too many parameters are a
limit too. -/
theorem functionRest_overruns_params {name opened : Token} {params ps : List Token}
    {pes : List ParseError} (hn : name.kind = .identifier) (ho : opened.kind = .leftParen)
    (ht : t.kind = .rightParen) (hlead : Leads (· ≠ .rightParen) ps)
    (hp : Reads n (· = .rightParen)
      (commaSeparated (expect .identifier (.expected "parameter name")) "parameters") params ps pes)
    (hpes : Limits pes) (h : Overruns n P (declarationsUntil d .endKeyword) ts) :
    Overruns n P (functionRest d) (name :: opened :: (ps ++ t :: ts)) := by
  unfold functionRest
  simp only [discard_bind, pure_bind]
  refine .expecting hn (by decide) (.expecting ho (by decide) ?_)
  refine .lookingPast ?_ (hlead.append _)
  exact .behind (hp.bind_pure _) hpes (functionBody_overruns ht h) fun rest _ => ⟨t, _, rfl, ht⟩

/-- A round of a body nests too deeply if its declaration does. -/
theorem declarationRound_overruns {stop : Kind} (acc : Array Stmt)
    (hlead : Leads (fun k => k ≠ stop ∧ k ≠ .endOfInput) ts) (h : Overruns n P d ts) :
    Overruns n P (declarationRound d stop acc) ts := by
  intro s rest hd hs hrest
  rw [run_declarationRound acc hlead hs]
  exact h.bind _ s rest hd hs hrest

end Statements

/-- What it means for a phrase to nest too deeply where `n` levels may still be opened. -/
def OverrunsPhrase (n : Nat) : {c : Category} → Phrase c → Prop
  | .primary, d => Overruns n Anything (primary (rules n).expression) d.tokens
  | .call, d => Overruns n Anything (call (rules n).expression) d.tokens
  | .tier 0, d => Overruns n (EndsTier 0) (rules n).unary d.tokens
  | .tier (t + 1), d => Overruns n (EndsTier t) (tier (rules n).unary (t + 1)) d.tokens
  | .expression, d => Overruns n EndsExpression (rules n).expression d.tokens
  | .arguments, d =>
    Overruns n EndsExpression (commaSeparated (rules n).expression "arguments") d.tokens
  | .entry, d => Overruns n EndsExpression (entry (rules n).expression) d.tokens
  | .fields, d => Overruns n Anything (repeated (tableRound (rules n).expression) #[]) d.tokens
  | .parameters, _ => True
  | .statement, d => Overruns n Anything (rules n).statement d.tokens
  | .declaration, d => Overruns n Anything (rules n).declaration d.tokens
  | .declarations, d =>
    ∀ stop ∈ [Kind.endKeyword, Kind.rightBrace],
      Overruns n Anything (declarationsUntil (rules n).declaration stop) d.tokens

section Levels

variable {n : Nat} {P : Kind → Prop} {ts : List Token}

/-- A unary expression without a minus sign is a call, whatever the room. -/
theorem unary_call_overruns (h : Overruns n P (call (rules n).expression) ts)
    (hlead : Leads (· ≠ .minus) ts) : Overruns n P (rules n).unary ts := by
  cases n with
  | zero => exact .passingBy h hlead
  | succ n => exact .passingBy h hlead

/-- A phrase that nests too deeply does so at the tier that it belongs to. -/
theorem tier_overruns {t : Nat} {d : Phrase (.tier t)} (h : OverrunsPhrase n d) :
    Overruns n (EndsTier t) (tier (rules n).unary t) d.tokens := by
  cases t with
  | zero => exact h
  | succ t => exact Overruns.mono h fun _ hk => hk.mono (Nat.le_succ t)

end Levels

section Opening

variable {n k : Nat} {P : Kind → Prop} {ts : List Token}

/-- An expression opens a level. Without room it fails, and with room its parts lack some. -/
theorem expression_overruns (hn : n < k + 1)
    (h : ∀ m < k, Overruns m P (assignment (rules m).unary (rules m).expression) ts) :
    Overruns n P (rules n).expression ts := by
  cases n with
  | zero => exact .overrun _ P ts
  | succ n => exact (h n (Nat.lt_of_succ_lt_succ hn)).nested _

/-- A statement nests too deeply if there is no room for it, or none for what follows at the next
level. -/
theorem statement_overruns (hn : n < k + 1) (h : ∀ m < k, Overruns m P
      (statementRest (rules m).expression (rules m).statement (rules m).declaration) ts) :
    Overruns n P (rules n).statement ts := by
  cases n with
  | zero => exact .overrun _ P ts
  | succ n => exact (h n (Nat.lt_of_succ_lt_succ hn)).nested _

/-- A function nests too deeply if there is no room for it, or none for what follows at the next
level. -/
theorem function_overruns (hn : n < k + 1)
    (h : ∀ m < k, Overruns m P (functionRest (rules m).declaration) ts) :
    Overruns n P (rules n).function ts := by
  cases n with
  | zero => exact .overrun _ P ts
  | succ n => exact (h n (Nat.lt_of_succ_lt_succ hn)).nested _

/-- The operand of a minus sign opens a level. -/
theorem unary_minus_overruns {minus : Token} (hm : minus.kind = .minus) (hn : n < k + 1)
    (h : ∀ m < k, Overruns m P (rules m).unary ts) : Overruns n P (rules n).unary (minus :: ts) := by
  cases n with
  | zero => exact .accepting hm (by decide) ((Overruns.overrun _ P ts).bind _)
  | succ n =>
    have hoperand := (h n (Nat.lt_of_succ_lt_succ hn)).nested "expression"
    exact .accepting hm (by decide) (hoperand.bind _)

end Opening

section Phrases

/-- Of the fields of a table and one more entry one nests too deeply, in front of a token that ends
the entry. -/
theorem fields_overruns {n : Nat} {fs : Phrase .fields} {e : Phrase .entry} {t : Token}
    {k : Kind} (hk : EndsExpression k) (ht : t.kind = k) (hn : n < max fs.nesting e.nesting)
    (hfields : n < fs.nesting → OverrunsPhrase n fs) (hread : fs.nesting ≤ n → ReadsPhrase n fs)
    (hes : Limits fs.errors) (hentry : n < e.nesting → OverrunsPhrase n e) :
    Overruns n Anything (repeated (tableRound (rules n).expression) #[])
      (fs.tokens ++ (e.tokens ++ [t])) := by
  have hlead : Leads (· ≠ .rightBrace) e.tokens := leads_of_begins (e.begins id) (by decide)
  refine .inOrder hn hfields hread hes (fun he => ?_) ((hlead.mono fun _ _ => trivial).append _)
  have hround := tableRound_overruns fs.tree.toArray (hentry he) hlead
  exact (hround.append (.cons ht hk [])).round

/-- A phrase of the documented grammar that needs more levels than there is room for fails at the
limit of nesting. The induction is on the derivation; where a phrase has several parts, the first
one that nests too deeply fails, and those in front of it are read. -/
theorem overrunsPhrase {c : Category} (d : Phrase c) (n : Nat) (hn : n < d.nesting)
    (hc : d.Clear) (hd : d.Documented) : OverrunsPhrase n d := by
  induction d generalizing n with
  | literal t h => cases hn
  | nil t => cases hn
  | name t => cases hn
  | table o fs c ih =>
    exact primary_table_overruns o.2 ((ih n hn hc hd).append ⟨c.1, [], rfl, trivial⟩)
  | tableLast o fs e c ihf ihe =>
    simp only [OverrunsPhrase, Phrase.tokens, List.append_assoc, List.cons_append]
    exact primary_table_overruns o.2 (fields_overruns (by decide) c.2 hn (ihf n · hc.1 hd.1)
      (readsPhrase fs n · hc.1) (fs.limits_errors hd.1) (ihe n · hc.2 hd.2))
  | grouping o e c ih =>
    exact primary_grouping_overruns o.2 ((ih n hn hc hd).append (.cons c.2 (by decide) []))
  | noFields => cases hn
  | moreFields fs e c ihf ihe =>
    simp only [OverrunsPhrase, Phrase.tokens, List.append_assoc]
    exact fields_overruns (by decide) c.2 hn (ihf n · hc.1 hd.1) (readsPhrase fs n · hc.1)
      (fs.limits_errors hd.1) (ihe n · hc.2 hd.2)
  | positional e ih =>
    exact entry_positional_overruns hc.1 (leads_of_begins (e.begins id) (by decide))
      (ih n hn hc.2 hd)
  | named t q e ih => exact .andThen (entry_key t.2 q.2) limits_nil ((ih n hn hc hd).bind _)
  | keyed o k c q e ihk ihe =>
    simp only [OverrunsPhrase, Phrase.tokens, List.cons_append]
    refine .andThen (entry_bracket o.2) limits_nil ?_
    refine condition_overruns (by decide) c.2 hn (ihk n · hc.1 hd.1) (readsPhrase k n · hc.1)
      (k.limits_errors hd.1) fun he => ?_
    exact .expecting q.2 (by decide) ((ihe n he hc.2 hd.2).bind _)
  | single p ih =>
    simp only [OverrunsPhrase, call_eq]
    exact (ih n hn hc hd).bind _
  | called f o c ih => exact (ih n hn hc hd).append ⟨o.1, _, rfl, trivial⟩
  | calledWith f o as c ihf iha =>
    have hlead : Leads (· ≠ .rightParen) as.tokens := leads_of_begins (as.begins id) (by decide)
    have hclosed : Leads EndsExpression [c.1] := .cons c.2 (by decide) []
    simp only [OverrunsPhrase, Phrase.tokens, List.append_assoc, List.cons_append]
    refine .inOrder hn (ihf n · hc.1 hd.1) (readsPhrase f n · hc.1) (f.limits_errors hd.1)
      (fun ha => ?_) ⟨o.1, _, rfl, trivial⟩
    exact (callRound_call_overruns f.tree o.2 (hlead.append _)
      ((iha n ha hc.2 hd.2).append hclosed)).round
  | field e d t ih => exact (ih n hn hc hd).append ⟨d.1, _, rfl, trivial⟩
  | index e o k c ihe ihk =>
    have hclosed : Leads EndsExpression [c.1] := .cons c.2 (by decide) []
    simp only [OverrunsPhrase, Phrase.tokens, List.append_assoc, List.cons_append]
    refine .inOrder hn (ihe n · hc.1 hd.1) (readsPhrase e n · hc.1) (e.limits_errors hd.1)
      (fun hk => ?_) ⟨o.1, _, rfl, trivial⟩
    exact (callRound_index_overruns e.tree o.2 ((ihk n hk hc.2 hd.2).append hclosed)).round
  | argument e ih => exact (ih n hn hc hd).bind _
  | moreArguments as c e iha ihe =>
    refine .inOrder hn (iha n · hc.1 hd.1) (readsPhrase as n · hc.1) (as.limits_errors hd.1)
      (fun he => ?_) (.cons c.2 (by decide) _)
    exact (commaRound_overruns (Or.inl rfl) c.2 as.tree.toArray (ihe n he hc.2 hd.2)).round
  | unsigned e ih =>
    exact unary_call_overruns ((ih n hn hc hd).mono fun _ _ => trivial)
      (leads_of_begins (e.begins id) (by decide))
  | negated m e ih => exact unary_minus_overruns m.2 hn fun n hn => ih n hn hc hd
  | operand e ih => exact (tier_overruns (ih n hn hc hd)).bind _
  | joined l op h r ihl ihr =>
    refine .inOrder hn (ihl n · hc.1 hd.1) (readsPhrase l n · hc.1) (l.limits_errors hd.1)
      (fun hr => ?_) (.cons op.kind_eq (endsTier_operator h) _)
    exact (chainRound_overruns l.tree h (tier_overruns (ihr n hr hc.2 hd.2))).round
  | value e ih =>
    refine expression_overruns hn fun n hn => ?_
    exact ((tier_overruns (ih n hn hc hd)).mono fun _ hk => hk.1).bind _
  | assigned t q e iht ihe =>
    -- A name is the only target, and it needs no room.
    obtain ⟨⟨name, htokens⟩, he⟩ := hd
    obtain ⟨-, herrors, hnesting⟩ := t.name_of_tokens name.2 htokens
    refine expression_overruns hn fun n hn => ?_
    have hread := tier_reads (readsPhrase t n (by omega) hc.1)
    rw [herrors] at hread
    have hvalue := ihe n (by omega) hc.2 he
    refine .behind (hread.bind_pure _) limits_nil ?_ fun rest _ => .cons q.2 (by decide) _
    exact .accepting q.2 (by decide) (hvalue.bind _)
  | parameter t => trivial
  | moreParameters ps c t ih => trivial
  | conditional i e t s d ihe ihs =>
    refine statement_overruns hn fun n hn => ?_
    simp only [Phrase.tokens, List.append_assoc, List.cons_append]
    refine .andThen (statementRest_if i.2) limits_nil ?_
    rw [conditional_eq]
    refine condition_overruns (by decide) t.2 hn (ihe n · hc.1 hd.1) (readsPhrase e n · hc.1)
      (e.limits_errors hd.1) fun hs => ?_
    exact ((ihs n hs hc.2 hd.2).append ⟨d.1, [], rfl, trivial⟩).bind _
  | alternative i e t s l r d ihe ihs ihr =>
    refine statement_overruns hn fun n hn => ?_
    rw [Nat.max_assoc] at hn
    simp only [Phrase.tokens, List.append_assoc, List.cons_append]
    refine .andThen (statementRest_if i.2) limits_nil ?_
    rw [conditional_eq]
    refine condition_overruns (by decide) t.2 hn (ihe n · hc.1 hd.1) (readsPhrase e n · hc.1)
      (e.limits_errors hd.1) fun hsr => ?_
    exact branches_overruns l.2 hsr (ihs n · hc.2.1 hd.2.1) (readsPhrase s n · hc.2.1)
      (s.limits_errors hd.2.1) fun hr =>
        (ihr n hr hc.2.2 hd.2.2).append ⟨d.1, [], rfl, trivial⟩
  | loop w e t s d ihe ihs =>
    refine statement_overruns hn fun n hn => ?_
    simp only [Phrase.tokens, List.append_assoc, List.cons_append]
    refine .andThen (statementRest_while w.2) limits_nil ?_
    unfold whileLoop
    simp only [discard_bind]
    refine condition_overruns (by decide) t.2 hn (ihe n · hc.1 hd.1) (readsPhrase e n · hc.1)
      (e.limits_errors hd.1) fun hs => ?_
    exact ((ihs n hs hc.2 hd.2).append ⟨d.1, [], rfl, trivial⟩).bind _
  | block o ds c ih =>
    refine statement_overruns hn fun n hn => ?_
    simp only [Phrase.tokens, List.cons_append]
    refine .andThen (statementRest_block o.2) limits_nil ?_
    have hbody := ih n hn hc hd .rightBrace (by decide)
    exact ((hbody.append ⟨c.1, [], rfl, trivial⟩).bind _).bind _
  | returned k s => exact statement_overruns hn fun n hn => absurd hn (Nat.not_lt_zero n)
  | returnedValue k e s ih =>
    refine statement_overruns hn fun n hn => ?_
    simp only [Phrase.tokens, List.cons_append]
    refine .andThen (statementRest_return k.2) limits_nil ?_
    have hlead : Leads (· ≠ .semicolon) e.tokens := leads_of_begins (e.begins id) (by decide)
    refine .lookingPast ?_ (hlead.append _)
    exact ((ih n hn hc hd).append (.cons s.2 (by decide) _)).bind _
  | expressed e s ih =>
    refine statement_overruns hn fun n hn => ?_
    change Overruns n Anything _ ([] ++ (e.tokens ++ [s.1]))
    refine .behind statementRest_expression limits_nil ?_ fun rest _ =>
      ((beginsStated hc.1).append _).append rest
    exact ((ih n hn hc.2 hd).append (.cons s.2 (by decide) [])).bind _
  | procedure k m o c ds d ih =>
    refine .accepting k.2 (by decide) (function_overruns hn fun n hn => ?_)
    have hbody := ih n hn hc hd .endKeyword (by decide)
    exact functionRest_overruns_none m.2 o.2 c.2 (hbody.append ⟨d.1, [], rfl, trivial⟩)
  | function k m o ps c ds d ihp ihd =>
    simp only [OverrunsPhrase, Phrase.tokens, List.append_assoc, List.cons_append]
    refine .accepting k.2 (by decide) (function_overruns hn fun n hn => ?_)
    have hbody := ihd n hn hc hd .endKeyword (by decide)
    have hparams := readsPhrase ps n (by simp [ps.nesting_parameters]) ps.clear_parameters
    have hlead : Leads (· ≠ .rightParen) ps.tokens := leads_of_begins (ps.begins id) (by decide)
    exact functionRest_overruns_params m.2 o.2 c.2 hlead (parameters_reads hparams)
      (ps.limits_errors ps.documented_parameters) (hbody.append ⟨d.1, [], rfl, trivial⟩)
  | declared k m s => cases hn
  | initialized k m q e s ih =>
    have hvalue := ih n hn hc hd
    refine .passingBy ?_ (.cons k.2 (by decide) _)
    refine .accepting k.2 (by decide) ?_
    exact localVariable_overruns m.2 q.2 (hvalue.append (.cons s.2 (by decide) []))
  | stated s ih =>
    refine .passingBy ?_ (leads_of_begins (s.begins id) (by decide))
    refine .passingBy ?_ (leads_of_begins (s.begins id) (by decide))
    exact ih n hn hc hd
  | noDeclarations => cases hn
  | moreDeclarations ds d ihds ihd =>
    intro stop hstop
    have hlead : Leads (fun k => k ≠ stop ∧ k ≠ .endOfInput) d.tokens := by
      refine leads_of_begins (d.begins id) ?_
      revert stop
      decide
    refine .inOrder hn (ihds n · hc.1 hd.1 stop hstop) (readsPhrase ds n · hc.1 stop hstop)
      (ds.limits_errors hd.1) (fun hnd => ?_) (hlead.mono fun _ _ => trivial)
    exact (declarationRound_overruns ds.tree.toArray hlead (ihd n hnd hc.2 hd.2)).round

end Phrases

end Moonbridge.Parser
