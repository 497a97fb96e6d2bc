import Moonbridge.Proofs.JavaScript.Lexemes
import Moonbridge.Proofs.Parser.Sources

/-!
# The code of an expression means the expression

The lexemes of an expression that is no assignment are read as a member, whatever follows: the
reader goes on with what may be appended to a member. Where none of that follows, and no
operator either, they are read as an expression. Only an assignment needs more care, and it
stands only where a bracket or a comma follows.
-/

namespace Moonbridge.JavaScript

open Term

section Symbols

/-- The symbols that end an expression. -/
def closers : List String := [")", "]", "\x7d", ","]

/-- An expression ends in front of the lexemes. -/
def Closes (rest : List Lexeme) : Prop := ∀ l ∈ rest.head?, ∃ s ∈ closers, l = .symbol s

/-- Lexemes that neither end an expression nor start with a sign. -/
def Opens (items : List Lexeme) : Prop :=
  ∃ l ∈ items.head?, ∀ s ∈ "-" :: closers, l ≠ .symbol s

variable {s : String} {items rest : List Lexeme}

@[simp] theorem behind?_self (s : String) (rest : List Lexeme) :
    behind? s (.symbol s :: rest) = some ⟨rest, Nat.lt_succ_self _⟩ := by
  simp [behind?]

/-- Behind another symbol nothing is found. -/
theorem behind?_ne {found : String} (h : found ≠ s) (rest : List Lexeme) :
    behind? s (.symbol found :: rest) = none := by
  simp [behind?, h]

/-- Each of the closing symbols closes an expression. -/
theorem closes_cons (h : s ∈ closers) (rest : List Lexeme) : Closes (.symbol s :: rest) := by
  intro l hl
  obtain rfl : .symbol s = l := by simpa using hl
  exact ⟨s, h, rfl⟩

private theorem closes_comma (rest : List Lexeme) : Closes (.symbol "," :: rest) :=
  closes_cons (by decide) rest

/-- What closes an expression starts with none of the other symbols. -/
theorem Closes.behind? (h : Closes rest) (hs : s ∉ closers) : behind? s rest = none := by
  cases rest with
  | nil => rfl
  | cons l rest =>
    obtain ⟨found, hfound, rfl⟩ := h l rfl
    refine behind?_ne ?_ rest
    rintro rfl
    exact hs hfound

/-- No operation of any tier starts in front of what ends an expression. -/
theorem Closes.operation? (h : Closes rest) {tier : Tier} (ht : tier ∈ tiers) :
    operation? tier rest = none := by
  cases rest with
  | nil => rfl
  | cons l rest =>
    obtain ⟨found, hfound, rfl⟩ := h l rfl
    have hall : ∀ tier ∈ tiers, ∀ s ∈ closers, tier.lookup s = none := by decide
    simp [Term.operation?, hall tier ht found hfound]

/-- What opens an expression starts neither with a minus sign nor with a closing symbol. -/
theorem Opens.behind? (h : Opens items) (hs : s ∈ "-" :: closers) (rest : List Lexeme) :
    behind? s (items ++ rest) = none := by
  obtain ⟨l, hl, hne⟩ := h
  cases items with
  | nil => cases hl
  | cons l' items =>
    obtain rfl : l' = l := by simpa using hl
    cases l' with
    | symbol found =>
      refine behind?_ne ?_ _
      rintro rfl
      exact hne found hs rfl
    | _ => rfl

/-- How an expression opens depends on its first lexeme only. -/
theorem Opens.append (h : Opens items) (rest : List Lexeme) : Opens (items ++ rest) := by
  obtain ⟨l, hl, hne⟩ := h
  cases items with
  | nil => cases hl
  | cons l' items => exact ⟨l, hl, hne⟩

/-- Lexemes that open an expression are at least one. -/
theorem Opens.length_lt (h : Opens items) (rest : List Lexeme) :
    rest.length < (items ++ rest).length := by
  obtain ⟨l, hl, -⟩ := h
  cases items with
  | nil => cases hl
  | cons l' items => grind

/-- Any symbol that neither negates nor closes opens an expression. -/
theorem opens_symbol (h : s ∉ "-" :: closers) (rest : List Lexeme) :
    Opens (.symbol s :: rest) := by
  refine ⟨_, rfl, ?_⟩
  rintro s' hs' heq
  obtain rfl : s = s' := by simpa using heq
  exact h hs'

end Symbols

section Reading

/-- Nothing is appended to a member in front of the lexemes. -/
structure Unappended (rest : List Lexeme) : Prop where
  call : behind? "(" rest = none
  bracket : behind? "[" rest = none
  dot : behind? "." rest = none

/-- Lexemes that are read as a term to which more may be appended. -/
structure ReadsMember (items : List Lexeme) (term : Term) : Prop where
  opens : Opens items
  read : ∀ rest, readMember (items ++ rest) = readSuffixes term rest

/-- Lexemes that are read as an expression where one can end. -/
structure ReadsExpression (items : List Lexeme) (term : Term) : Prop where
  opens : Opens items
  read : ∀ rest, Closes rest → readAssignment (items ++ rest) = some (term, rest)

variable {items items' rest : List Lexeme} {term term' : Term}

/-- What closes an expression appends nothing to it. -/
theorem Closes.unappended (h : Closes rest) : Unappended rest where
  call := h.behind? (by decide)
  bracket := h.behind? (by decide)
  dot := h.behind? (by decide)

/-- Without suffixes the term is complete. -/
theorem readSuffixes_done (h : Unappended rest) (term : Term) :
    readSuffixes term rest = some (term, rest) := by
  rw [readSuffixes, h.call, h.bracket, h.dot]

/-- A member without a sign in front of it is read as an operand. -/
theorem ReadsMember.unary (h : ReadsMember items term) (hrest : Unappended rest) :
    readUnary (items ++ rest) = some (term, rest) := by
  rw [readUnary, h.opens.behind? (by decide), h.read]
  exact readSuffixes_done hrest term

/-- Without a further operator of the tier the term is complete. -/
theorem readOperations_done {tier : Tier} (h : operation? tier rest = none) (tighter : List Tier)
    (term : Term) : readOperations tier tighter term rest = some (term, rest) := by
  rw [readOperations, h]

/-- Tiers whose operations do not follow leave what is read by tighter ones alone. -/
theorem readTiers_append {input : List Lexeme} {looser tighter : List Tier}
    (h : readTiers tighter input = some (term, rest)) (hlt : rest.length < input.length)
    (hrest : ∀ tier ∈ looser, operation? tier rest = none) :
    readTiers (looser ++ tighter) input = some (term, rest) := by
  induction looser with
  | nil => exact h
  | cons tier looser ih =>
    simp only [List.mem_cons, forall_eq_or_imp] at hrest
    rw [List.cons_append, readTiers, ih hrest.2, advance_some hlt]
    exact readOperations_done hrest.1 _ term

/-- An operand behind which no operator stands is read the same at every tier. -/
theorem readTiers_of_readUnary {input : List Lexeme} {levels : List Tier}
    (h : readUnary input = some (term, rest)) (hlt : rest.length < input.length)
    (hrest : ∀ tier ∈ levels, operation? tier rest = none) :
    readTiers levels input = some (term, rest) := by
  have hinnermost : readTiers [] input = some (term, rest) := by
    rw [readTiers]
    exact h
  simpa using readTiers_append hinnermost hlt hrest

/-- What is no assignment is left alone in front of what ends an expression. -/
theorem readAssignment_of_readTiers {input : List Lexeme}
    (h : readTiers tiers input = some (term, rest)) (hlt : rest.length < input.length)
    (hrest : Closes rest) : readAssignment input = some (term, rest) := by
  have hequals : behind? "=" rest = none := hrest.behind? (by decide)
  rw [readAssignment, h, advance_some hlt, Option.bind_eq_bind, Option.bind_some]
  simp only [hequals]
  rfl

/-- A member is an expression. -/
theorem ReadsMember.expression (h : ReadsMember items term) : ReadsExpression items term where
  opens := h.opens
  read rest hrest := by
    have hlt := h.opens.length_lt rest
    have htiers := readTiers_of_readUnary (h.unary hrest.unappended) hlt fun _ => hrest.operation?
    exact readAssignment_of_readTiers htiers hlt hrest

/-- What stands for itself or in brackets is a member. -/
theorem readsMember_of_readPrimary (hopens : Opens items)
    (h : ∀ rest, readPrimary (items ++ rest) = some (term, rest)) : ReadsMember items term where
  opens := hopens
  read rest := by
    rw [readMember, h, advance_some (hopens.length_lt rest)]
    rfl

/-- What is read as an expression in front of a closing parenthesis is a member in
parentheses. -/
theorem readsMember_inParens
    (h : ∀ rest, Closes rest → readAssignment (items ++ rest) = some (term, rest)) :
    ReadsMember (inParens items) term := by
  apply readsMember_of_readPrimary (opens_symbol (by decide) _)
  intro rest
  have hinner := h (.symbol ")" :: rest) (closes_cons (by decide) rest)
  simp only [List.cons_append, List.append_assoc, List.nil_append]
  rw [readPrimary]
  · simp [hinner]
  · simp
  · simp
  · simp

/-- The lexemes of a word, and those of a literal, are members. -/
theorem readsMember_word (name : String) : ReadsMember [.word name] (.word name) :=
  readsMember_of_readPrimary ⟨_, rfl, by simp⟩ fun rest => by
    rw [List.singleton_append, readPrimary]

/-- The lexeme of a literal is read as its image. -/
theorem readsMember_literal (value : Literal) :
    ReadsMember [literalLexeme value] (literalImage value) := by
  cases value with
  | nil => exact readsMember_word "null"
  | text value =>
    exact readsMember_of_readPrimary ⟨_, rfl, by simp [literalLexeme]⟩ fun rest => by
      rw [literalLexeme, List.singleton_append, readPrimary, literalImage]
  | number x =>
    simp only [literalLexeme, literalImage, numberLexeme]
    split
    · exact readsMember_word "Infinity"
    · exact readsMember_of_readPrimary ⟨_, rfl, by simp⟩ fun rest => by
        rw [List.singleton_append, readPrimary]

/-- A minus sign in front of a member is read as a negation. -/
theorem ReadsMember.negate (h : ReadsMember items term) (hrest : Closes rest) :
    readAssignment (.symbol "-" :: items ++ rest) = some (.negate term, rest) := by
  have hunary : readUnary (.symbol "-" :: items ++ rest) = some (.negate term, rest) := by
    rw [readUnary, List.cons_append, behind?_self]
    simp [h.unary hrest.unappended]
  have hlt : rest.length < (.symbol "-" :: items ++ rest).length := by grind
  have htiers := readTiers_of_readUnary hunary hlt fun _ => hrest.operation?
  exact readAssignment_of_readTiers htiers hlt hrest

/-- The tiers around an operator: it belongs to one of them and to none that binds tighter. -/
theorem tiers_split (op : BinaryOp) : ∃ looser tier tighter, tiers = looser ++ tier :: tighter ∧
    tier.lookup op.symbol = some (operation op) ∧
      ∀ level ∈ tighter, level.lookup op.symbol = none := by
  cases op with
  | or => exact ⟨[], _, _, rfl, by decide, by decide⟩
  | and => exact ⟨[_], _, _, rfl, by decide, by decide⟩
  | equal => exact ⟨[_, _], _, _, rfl, by decide, by decide⟩
  | notEqual => exact ⟨[_, _], _, _, rfl, by decide, by decide⟩
  | less => exact ⟨[_, _, _], _, _, rfl, by decide, by decide⟩
  | lessEqual => exact ⟨[_, _, _], _, _, rfl, by decide, by decide⟩
  | greater => exact ⟨[_, _, _], _, _, rfl, by decide, by decide⟩
  | greaterEqual => exact ⟨[_, _, _], _, _, rfl, by decide, by decide⟩
  | plus => exact ⟨[_, _, _, _], _, _, rfl, by decide, by decide⟩
  | minus => exact ⟨[_, _, _, _], _, _, rfl, by decide, by decide⟩
  | times => exact ⟨[_, _, _, _, _], _, _, rfl, by decide, by decide⟩
  | divide => exact ⟨[_, _, _, _, _], _, _, rfl, by decide, by decide⟩

/-- No operator is appended to a member. -/
theorem unappended_operator (op : BinaryOp) (rest : List Lexeme) :
    Unappended (.symbol op.symbol :: rest) := by
  have hne : op.symbol ∉ ["(", "[", "."] := by cases op <;> decide
  simp only [List.mem_cons, List.not_mem_nil, or_false, not_or] at hne
  exact ⟨behind?_ne hne.1 rest, behind?_ne hne.2.1 rest, behind?_ne hne.2.2 rest⟩

/-- Two members with an operator between them are read as its operation. -/
theorem ReadsMember.binary (h : ReadsMember items term) (h' : ReadsMember items' term')
    (op : BinaryOp) (hrest : Closes rest) :
    readAssignment (items ++ .symbol op.symbol :: items' ++ rest) =
      some (.binary term (operation op) term', rest) := by
  obtain ⟨looser, tier, tighter, htiers, hop, htighter⟩ := tiers_split op
  have hsub : ∀ level ∈ looser ++ tier :: tighter, operation? level rest = none := by
    rw [← htiers]
    exact fun _ => hrest.operation?
  have hltleft := h.opens.length_lt (.symbol op.symbol :: (items' ++ rest))
  have hltright := h'.opens.length_lt rest
  have hlt : rest.length < (items ++ .symbol op.symbol :: (items' ++ rest)).length := by
    simp only [List.length_append, List.length_cons]
    omega
  -- The operands are read by the tighter tiers, and the looser ones leave the operation alone.
  have hleft : readTiers tighter (items ++ .symbol op.symbol :: (items' ++ rest)) =
      some (term, .symbol op.symbol :: (items' ++ rest)) :=
    readTiers_of_readUnary (h.unary (unappended_operator op _)) hltleft
      fun level hlevel => by simp [operation?, htighter level hlevel]
  have hright : readTiers tighter (items' ++ rest) = some (term', rest) :=
    readTiers_of_readUnary (h'.unary hrest.unappended) hltright
      fun level hlevel => hsub level (by simp [hlevel])
  have htier : readTiers (tier :: tighter) (items ++ .symbol op.symbol :: (items' ++ rest)) =
      some (.binary term (operation op) term', rest) := by
    have hfound : operation? tier (.symbol op.symbol :: (items' ++ rest)) =
        some (operation op, ⟨items' ++ rest, by simp⟩) := by simp [operation?, hop]
    rw [readTiers, hleft, advance_some hltleft]
    simp only [Option.bind_eq_bind, Option.bind_some]
    rw [readOperations, hfound]
    simp only [hright, advance_some hltright, Option.bind_eq_bind, Option.bind_some]
    exact readOperations_done (hsub tier (by simp)) tighter _
  have hlooser : ∀ level ∈ looser, operation? level rest = none :=
    fun level hlevel => hsub level (by simp [hlevel])
  have hall := readTiers_append htier hlt hlooser
  rw [← htiers] at hall
  rw [List.append_assoc, List.cons_append]
  exact readAssignment_of_readTiers hall hlt hrest

end Reading

section Lists

variable {rest : List Lexeme}

/-- Expressions with commas between them are read up to the closing symbol. -/
theorem readItems_separated {closing : String} (hclosing : closing ∈ [")", "]"])
    {items : List (List Lexeme)} {terms : List Term}
    (h : List.Forall₂ ReadsExpression items terms) (rest : List Lexeme) :
    readItems closing (separated items ++ .symbol closing :: rest) = some (terms, rest) := by
  have hlisted : ∀ s ∈ [")", "]"], s ∈ closers ∧ s ≠ "," := by decide
  obtain ⟨hcloser, hcomma⟩ := hlisted closing hclosing
  induction h with
  | nil => rw [separated, List.nil_append, readItems, behind?_self]
  | @cons item term items terms hitem hitems ih =>
    have hopen : ∀ rest, behind? closing (item ++ rest) = none :=
      fun rest => hitem.opens.behind? (List.mem_cons_of_mem _ hcloser) rest
    cases hitems with
    | nil =>
      rw [separated, readItems, hopen]
      simp only [hitem.read _ (closes_cons hcloser rest), advance_some (hitem.opens.length_lt _),
        Option.bind_eq_bind, Option.bind_some, behind?_ne hcomma, behind?_self]
      rfl
    | cons hnext hothers =>
      rw [separated, List.append_assoc, List.cons_append, readItems, hopen]
      simp only [hitem.read _ (closes_comma _), advance_some (hitem.opens.length_lt _),
        Option.bind_eq_bind, Option.bind_some, behind?_self, ih]
      rfl

/-- Lexemes that are read as the key of a property. -/
structure ReadsKey (items : List Lexeme) (key : Key) : Prop where
  opens : Opens items
  read : ∀ rest, readKey (items ++ rest) = some (key, rest)

/-- Lexemes that are read as a property: a key, a colon and a value. -/
inductive ReadsProperty : List Lexeme → Property → Prop
  | mk {keys values : List Lexeme} {key : Key} {value : Term} (hkey : ReadsKey keys key)
      (hvalue : ReadsExpression values value) :
      ReadsProperty (keys ++ .symbol ":" :: values) (.mk key value)

/-- Properties with commas between them are read up to the closing brace. -/
theorem readProperties_separated {items : List (List Lexeme)} {properties : List Property}
    (h : List.Forall₂ ReadsProperty items properties) (rest : List Lexeme) :
    readProperties (separated items ++ .symbol "\x7d" :: rest) = some (properties, rest) := by
  induction h with
  | nil => rw [separated, List.nil_append, readProperties, behind?_self]
  | @cons item property items properties hitem hitems ih =>
    obtain ⟨hkey, hvalue⟩ := hitem
    cases hitems with
    | nil =>
      have hbrace : Closes (.symbol "\x7d" :: rest) := closes_cons (by decide) rest
      rw [separated, List.append_assoc, readProperties, hkey.opens.behind? (by decide)]
      simp only [hkey.read, List.cons_append, advance_some (hkey.opens.length_lt _),
        Option.bind_eq_bind, Option.bind_some, behind?_self, hvalue.read _ hbrace,
        advance_some (hvalue.opens.length_lt _), behind?_ne (by decide : "\x7d" ≠ ",")]
      rfl
    | cons hnext hothers =>
      rw [separated, List.append_assoc, List.append_assoc, readProperties,
        hkey.opens.behind? (by decide)]
      simp only [hkey.read, List.cons_append, advance_some (hkey.opens.length_lt _),
        Option.bind_eq_bind, Option.bind_some, behind?_self, hvalue.read _ (closes_comma _),
        advance_some (hvalue.opens.length_lt _), ih]
      rfl

end Lists

section Suffixes

variable {items keys rest : List Lexeme} {term key : Term}

/-- Arguments behind a member are read as a call of it. -/
theorem ReadsMember.call (h : ReadsMember items term) {args : List (List Lexeme)}
    {terms : List Term} (hargs : List.Forall₂ ReadsExpression args terms) :
    ReadsMember (items ++ inParens (separated args)) (.call term terms) where
  opens := h.opens.append _
  read rest := by
    have hread := readItems_separated (by decide : ")" ∈ [")", "]"]) hargs rest
    have hlt : rest.length < (separated args ++ .symbol ")" :: rest).length := by
      simp only [List.length_append, List.length_cons]
      omega
    rw [List.append_assoc, h.read, inParens, List.cons_append, List.append_assoc, readSuffixes,
      behind?_self]
    simp only [List.cons_append, List.nil_append, hread, advance_some hlt, Option.bind_eq_bind,
      Option.bind_some]

/-- A key in brackets behind a member is read as a member of it. -/
theorem ReadsMember.bracket (h : ReadsMember items term) (hkey : ReadsExpression keys key) :
    ReadsMember (items ++ inBrackets keys) (.member term key) where
  opens := h.opens.append _
  read rest := by
    have hread := hkey.read (.symbol "]" :: rest) (closes_cons (by decide) rest)
    rw [List.append_assoc, h.read, inBrackets, List.cons_append, List.append_assoc, readSuffixes,
      behind?_ne (by decide), behind?_self]
    simp only [List.cons_append, List.nil_append, hread,
      advance_some (hkey.opens.length_lt _), behind?_self, Option.bind_eq_bind, Option.bind_some]

/-- A field behind a member is read as a member of it. -/
theorem ReadsMember.field (h : ReadsMember items term) (name : String) :
    ReadsMember (items ++ [.symbol ".", .word name]) (.member term (.text name)) where
  opens := h.opens.append _
  read rest := by
    rw [List.append_assoc, h.read, List.cons_append, readSuffixes, behind?_ne (by decide),
      behind?_ne (by decide), behind?_self]
    rfl

/-- Elements in brackets are read as an array. -/
theorem readsMember_array {elements : List (List Lexeme)} {terms : List Term}
    (h : List.Forall₂ ReadsExpression elements terms) :
    ReadsMember (inBrackets (separated elements)) (.array terms) := by
  apply readsMember_of_readPrimary (opens_symbol (by decide) _)
  intro rest
  have hread := readItems_separated (by decide : "]" ∈ [")", "]"]) h rest
  simp only [List.cons_append, List.append_assoc, List.nil_append]
  rw [readPrimary]
  · simp only [behind?_ne (by decide : "[" ≠ "("), behind?_self, hread]
    rfl
  · simp
  · simp
  · simp

/-- Properties in braces are read as an object. -/
theorem readsMember_object {items : List (List Lexeme)} {properties : List Property}
    (h : List.Forall₂ ReadsProperty items properties) :
    ReadsMember (.symbol "\x7b" :: (separated items ++ [.symbol "\x7d"]))
      (.object properties) := by
  apply readsMember_of_readPrimary (opens_symbol (by decide) _)
  intro rest
  have hread := readProperties_separated h rest
  simp only [List.cons_append, List.append_assoc, List.nil_append]
  rw [readPrimary]
  · simp only [behind?_ne (by decide : "\x7b" ≠ "("), behind?_ne (by decide : "\x7b" ≠ "["),
      behind?_self, hread]
    rfl
  · simp
  · simp
  · simp

/-- A name that is assigned to is read as the target. -/
theorem ReadsExpression.assign (h : ReadsExpression items term) (name : String) :
    ReadsExpression (.word name :: .symbol "=" :: items) (.assign (.word name) term) where
  opens := ⟨_, rfl, by simp⟩
  read rest hrest := by
    have hfree : Unappended (.symbol "=" :: (items ++ rest)) :=
      ⟨behind?_ne (by decide) _, behind?_ne (by decide) _, behind?_ne (by decide) _⟩
    have hnone : ∀ tier ∈ tiers, operation? tier (.symbol "=" :: (items ++ rest)) = none := by
      have hall : ∀ tier ∈ tiers, tier.lookup "=" = none := by decide
      intro tier htier
      simp [operation?, hall tier htier]
    have hlt := (readsMember_word name).opens.length_lt (.symbol "=" :: (items ++ rest))
    have htarget := readTiers_of_readUnary ((readsMember_word name).unary hfree) hlt hnone
    rw [List.cons_append, List.cons_append, ← List.singleton_append, readAssignment, htarget,
      advance_some hlt]
    simp only [Option.bind_eq_bind, Option.bind_some, behind?_self, isTarget, if_true,
      h.read rest hrest]
    rfl

/-- The key of a property is read as it is written, or as computed. -/
theorem ReadsExpression.computed (h : ReadsExpression keys key) :
    ReadsKey (inBrackets keys) (.computed key) where
  opens := opens_symbol (by decide) _
  read rest := by
    have hread := h.read (.symbol "]" :: rest) (closes_cons (by decide) rest)
    rw [inBrackets, List.cons_append, List.append_assoc, readKey]
    · simp only [behind?_self, List.cons_append, List.nil_append, hread, Option.bind_eq_bind,
        Option.bind_some]
      rfl
    · simp
    · simp
    · simp

private theorem readsKey_word (name : String) : ReadsKey [.word name] (.word name) :=
  ⟨⟨_, rfl, by simp⟩, fun rest => by rw [List.singleton_append, readKey]⟩

private theorem readsKey_number (x : Double) : ReadsKey [.number x] (.number x) :=
  ⟨⟨_, rfl, by simp⟩, fun rest => by rw [List.singleton_append, readKey]⟩

private theorem readsKey_text (value : String) : ReadsKey [.text value] (.text value) :=
  ⟨⟨_, rfl, by simp⟩, fun rest => by rw [List.singleton_append, readKey]⟩

/-- The key of a property is a literal as it is written, or computed. -/
theorem ReadsExpression.propertyKey {key : Expr} (h : ReadsExpression (lexemes key) (image key)) :
    ReadsKey (keyLexemes key (lexemes key)) (keyImage key (image key)) := by
  cases key with
  | literal value =>
    cases value with
    | nil => exact readsKey_word "null"
    | text value => exact readsKey_text value
    | number x =>
      simp only [keyLexemes, lexemes, literalLexeme, numberLexeme, keyImage]
      split
      · exact readsKey_word "Infinity"
      · exact readsKey_number x
  | _ => exact h.computed

/-- What is called is read as its image. -/
theorem ReadsMember.callee {callee : Expr} (h : ReadsMember (lexemes callee) (image callee)) :
    ReadsMember (calleeLexemes callee (lexemes callee)) (calleeImage callee (image callee)) := by
  cases callee with
  | name token =>
    by_cases hprint : token.lexeme = "print"
    · simp only [calleeLexemes, calleeImage, if_pos hprint]
      exact (readsMember_word "console").field "log"
    · simp only [calleeLexemes, calleeImage, if_neg hprint]
      exact h
  | _ => exact h

/-- The table of an index is read as its image, in parentheses or not. -/
theorem ReadsMember.target {table : Expr} (htable : table.isAssignment = false)
    (h : ReadsMember (lexemes table) (image table)) :
    ReadsMember (targetLexemes table (lexemes table)) (image table) := by
  rcases target_cases htable with ⟨x, rfl⟩ | ⟨-, hplain⟩
  · exact readsMember_inParens h.expression.read
  · rw [(hplain "" (lexemes table)).2]
    exact h

/-- An index is read as a member of its table. -/
theorem ReadsMember.index {table key : Expr} (htable : table.isAssignment = false)
    (h : ReadsMember (lexemes table) (image table))
    (hkey : ReadsExpression (lexemes key) (image key)) :
    ReadsMember (lexemes (.index table key)) (image (.index table key)) := by
  have htarget := h.target htable
  rw [lexemes, image]
  rcases suffix_cases key with ⟨name, rfl, hname⟩ | hbrackets
  · simp only [suffixLexemes, if_pos hname]
    exact htarget.field name
  · rw [(hbrackets "" (lexemes key)).2]
    exact htarget.bracket hkey

end Suffixes

section Expressions

/-- The lexemes of an expression are read as its image, and those of an expression that is no
assignment as a member. -/
structure ReadsImage (e : Expr) : Prop where
  expression : ReadsExpression (lexemes e) (image e)
  member : e.isAssignment = false → ReadsMember (lexemes e) (image e)

/-- An image that is read as a member is read as an expression. -/
theorem ReadsMember.image {e : Expr} (h : ReadsMember (lexemes e) (image e)) : ReadsImage e :=
  ⟨h.expression, fun _ => h⟩

mutual

/-- The lexemes of an expression are read as its image. -/
theorem readsImage : ∀ (e : Expr), e.Legible → ReadsImage e
  | .binary left op right, he => by
    have hleft := (readsImage left (he.part (by simp [Expr.parts]))).member he.regular.1
    have hright := (readsImage right (he.part (by simp [Expr.parts]))).member he.regular.2
    apply ReadsMember.image
    rw [lexemes, image]
    exact readsMember_inParens fun rest hrest => hleft.binary hright op.op hrest
  | .grouping inner, he => by
    have hinner := (readsImage inner (he.part (by simp [Expr.parts]))).expression
    apply ReadsMember.image
    rw [lexemes, image]
    exact readsMember_inParens hinner.read
  | .literal value, _ => ReadsMember.image (e := .literal value) (readsMember_literal value)
  | .unary op operand, he => by
    have hoperand := (readsImage operand (he.part (by simp [Expr.parts]))).member he.regular.2
    apply ReadsMember.image
    rw [lexemes, image]
    exact readsMember_inParens fun rest hrest => hoperand.negate hrest
  | .name token, _ => ReadsMember.image (e := .name token) (readsMember_word token.lexeme)
  | .assign target value, he => by
    have hvalue := (readsImage value (he.part (by simp [Expr.parts]))).expression
    refine ⟨?_, fun h => by cases h⟩
    rw [lexemes, image]
    exact hvalue.assign target.lexeme
  | .call callee paren args, he => by
    have hcallee := (readsImage callee (he.part (by simp [Expr.parts]))).member he.regular
    have hargs := readsArguments args fun p hp => he.part (by simp [Expr.parts, hp])
    apply ReadsMember.image
    rw [lexemes, image]
    exact hcallee.callee.call hargs
  | .table entries, he => by
    have hparts : ∀ p ∈ Entry.partsOfAll entries, p.Legible :=
      fun p hp => he.part (by simp [Expr.parts, hp])
    apply ReadsMember.image
    rw [lexemes, image]
    split
    · exact readsMember_object (readsProperties 1 entries hparts)
    · exact readsMember_array (readsElements entries hparts)
  | .index table key, he => by
    have htable := (readsImage table (he.part (by simp [Expr.parts]))).member he.regular
    have hkey := (readsImage key (he.part (by simp [Expr.parts]))).expression
    exact (htable.index he.regular hkey).image

/-- The lexemes of arguments are read as their images. -/
theorem readsArguments : ∀ (es : List Expr), (∀ p ∈ Expr.partsOfAll es, p.Legible) →
    List.Forall₂ ReadsExpression (argumentLexemes es) (images es)
  | [], _ => .nil
  | e :: es, h => .cons (readsImage e (h e (by simp [Expr.partsOfAll]))).expression
      (readsArguments es fun p hp => h p (by simp [Expr.partsOfAll, hp]))

/-- The lexemes of elements are read as their images. -/
theorem readsElements : ∀ (es : List Entry), (∀ p ∈ Entry.partsOfAll es, p.Legible) →
    List.Forall₂ ReadsExpression (elementLexemes es) (elementImages es)
  | [], _ => .nil
  | .positional value :: es, h =>
    .cons (readsImage value (h value (by simp [Entry.partsOfAll, Entry.parts]))).expression
      (readsElements es fun p hp => h p (by simp [Entry.partsOfAll, hp]))
  | .keyed key value :: es, h =>
    .cons (readsImage value (h value (by simp [Entry.partsOfAll, Entry.parts]))).expression
      (readsElements es fun p hp => h p (by simp [Entry.partsOfAll, hp]))

/-- The lexemes of properties are read as their images. -/
theorem readsProperties : ∀ (next : Nat) (es : List Entry),
    (∀ p ∈ Entry.partsOfAll es, p.Legible) →
      List.Forall₂ ReadsProperty (propertyLexemes next es) (propertyImages next es)
  | _, [], _ => .nil
  | next, .positional value :: es, h => by
    have hvalue := (readsImage value (h value (by simp [Entry.partsOfAll, Entry.parts]))).expression
    exact .cons (.mk (readsKey_number _) hvalue)
      (readsProperties (next + 1) es fun p hp => h p (by simp [Entry.partsOfAll, hp]))
  | next, .keyed key value :: es, h => by
    have hkey := (readsImage key (h key (by simp [Entry.partsOfAll, Entry.parts]))).expression
    have hvalue := (readsImage value (h value (by simp [Entry.partsOfAll, Entry.parts]))).expression
    exact .cons (.mk hkey.propertyKey hvalue)
      (readsProperties next es fun p hp => h p (by simp [Entry.partsOfAll, hp]))

end

/-- The code of a legible expression is read as its image. -/
theorem read_of_legible {e : Expr} (he : e.Legible) : read (expression e) = some (image e) := by
  have hspells := spells_expression e he [] (.inl (by simp [Ends]))
  have hread := (readsImage e he).expression.read [] (by simp [Closes])
  unfold Spells at hspells
  rw [List.append_nil] at hspells hread
  rw [read, hspells, Lexeme.readAll]
  simp [hread]

end Expressions

section Sample

open Grammar

/-- A token of the sample that is not a literal. -/
def sampleToken (kind : Kind) (lexeme : String) : Token := ⟨kind, lexeme, .nil, 1⟩

/-- A number of the sample. -/
def sampleNumber (lexeme : String) (n : Nat) : Token :=
  ⟨.number, lexeme, .number (Double.ofRatio n 1), 1⟩

/-- A call or a member as an operand of any operator. -/
def operandOf (e : Phrase (.tier 0)) : Phrase .expression :=
  .value (.operand (.operand (.operand (.operand (.operand (.operand e))))))

/-- A table of a positional entry and one with a key. -/
def sampleTable : Phrase .primary :=
  .tableLast ⟨sampleToken .leftBrace "\x7b", rfl⟩
    (.moreFields .noFields (.positional (operandOf (.unsigned (.single
      (.literal (sampleNumber "1" 1) (.inl rfl)))))) ⟨sampleToken .comma ",", rfl⟩)
    (.named ⟨sampleToken .identifier "k", rfl⟩ ⟨sampleToken .assign "=", rfl⟩
      (operandOf (.unsigned (.single (.literal (sampleNumber "2" 2) (.inl rfl))))))
    ⟨sampleToken .rightBrace "\x7d", rfl⟩

/-- The arguments of the call: a field of the table, and a negated name. -/
def sampleArguments : Phrase .arguments :=
  .moreArguments (.argument (operandOf (.unsigned (.field (.single sampleTable)
      ⟨sampleToken .dot ".", rfl⟩ ⟨sampleToken .identifier "k", rfl⟩))))
    ⟨sampleToken .comma ",", rfl⟩
    (operandOf (.negated ⟨sampleToken .minus "-", rfl⟩
      (.unsigned (.single (.name ⟨sampleToken .identifier "x", rfl⟩)))))

/-- The derivation of `print(\x7b1, k = 2\x7d.k, -x);`. -/
def sampleCall : Phrase .declaration :=
  .stated (.expressed (operandOf (.unsigned (.calledWith
    (.single (.name ⟨sampleToken .identifier "print", rfl⟩)) ⟨sampleToken .leftParen "(", rfl⟩
    sampleArguments ⟨sampleToken .rightParen ")", rfl⟩))) ⟨sampleToken .semicolon ";", rfl⟩)

private theorem accepted_sampleCall : Parser.Accepted sampleCall where
  documented := by
    simp [sampleCall, sampleArguments, sampleTable, operandOf, Phrase.Documented]
  clear := by
    simp [sampleCall, sampleArguments, sampleTable, operandOf, Phrase.Clear, Phrase.StartsAsKey,
      Phrase.StartsAsBlock, Phrase.tokens, sampleToken]
  listed := by decide
  nested := by
    have hfour : sampleCall.nesting = 4 := rfl
    rw [hfour]
    decide
  height := by
    have hsix : sampleCall.tree.outline.height = 6 := rfl
    rw [hsix]
    decide

private theorem tokenize_sample : tokenize "print(\x7b1, k = 2\x7d.k, -x);" =
    .ok (sampleCall.tokens ++ [sampleToken .endOfInput ""]) := by
  decide +kernel

private theorem accepted_samples : ∀ d ∈ [sampleCall], Parser.Accepted d := by
  intro d hd
  obtain rfl := List.mem_singleton.mp hd
  exact accepted_sampleCall

private theorem programOf_sample :
    programOf "print(\x7b1, k = 2\x7d.k, -x);" = .ok [sampleCall.tree] := by
  have hparse := Parser.parse_of_accepted accepted_samples
    (sampleToken .endOfInput "") rfl []
  exact programOf_eq_ok_iff.mpr ⟨_, tokenize_sample, by simpa using hparse.1⟩

/-- The expression of the sample. -/
def sampleExpr : Expr :=
  .call (.name (sampleToken .identifier "print")) (sampleToken .rightParen ")")
    [.index (.table [.positional (.literal (.number (Double.ofRatio 1 1))),
        .keyed (.literal (.text "k")) (.literal (.number (Double.ofRatio 2 1)))])
      (.literal (.text "k")),
    .unary (sampleToken .minus "-") (.name (sampleToken .identifier "x"))]

end Sample

/-- Reading the code of any expression in the program of a source succeeds, takes the whole
code and gives the image of the expression, unless a key that is a text and stands in an index
within it ends with a line break. -/
theorem code_means_image {source : String} {program : Program}
    (h : programOf source = .ok program) {e : Expr} (he : e ∈ Program.parts program)
    (hkeys : ∀ table name, .index table (.literal (.text name)) ∈ e.parts →
      name.toList.getLast? ≠ some '\n') :
    read (expression e) = some (image e) :=
  read_of_legible ⟨spelled_of_programOf h he, hkeys⟩

/-- The call of the sample is read as a call of the console's method. -/
theorem code_means_image_call :
    programOf "print(\x7b1, k = 2\x7d.k, -x);" = .ok [.expression sampleExpr] ∧
      sampleExpr ∈ Program.parts [.expression sampleExpr] ∧
      (∀ table name, .index table (.literal (.text name)) ∈ sampleExpr.parts →
        name.toList.getLast? ≠ some '\n') ∧
      expression sampleExpr = "console.log(\x7b1: 1, \"k\": 2\x7d.k, (-x))" ∧
      read (expression sampleExpr) = some (.call (.member (.word "console") (.text "log"))
        [.member (.object [.mk (.number (Double.ofRatio 1 1)) (.number (Double.ofRatio 1 1)),
            .mk (.text "k") (.number (Double.ofRatio 2 1))]) (.text "k"),
          .negate (.word "x")]) := by
  have hpart : sampleExpr ∈ Program.parts [.expression sampleExpr] := by
    simp [Program.parts, Stmt.expressionsOfAll, Stmt.expressions]
  have hkeys : ∀ table name, .index table (.literal (.text name)) ∈ sampleExpr.parts →
      name.toList.getLast? ≠ some '\n' := by
    intro table name hindex
    simp [sampleExpr, Expr.parts, Expr.partsOfAll, Entry.partsOfAll, Entry.parts] at hindex
    obtain ⟨-, rfl⟩ := hindex
    decide
  refine ⟨programOf_sample, hpart, hkeys, by decide +kernel, ?_⟩
  have hone : (Double.ofRatio 1 1).isInfinite = false := by decide +kernel
  have htwo : (Double.ofRatio 2 1).isInfinite = false := by decide +kernel
  rw [code_means_image programOf_sample hpart hkeys]
  simp [sampleExpr, image, images, calleeImage, consoleLog, propertyImages, keyImage, positionKey,
    literalImage, Entry.isKeyed, sampleToken, hone, htwo]

end Moonbridge.JavaScript
