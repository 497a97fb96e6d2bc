import Moonbridge.Proofs.Parser.Sources
import Moonbridge.Proofs.Token.Stream

/-!
# The tokens in the trees of a source

The text of a token determines its category and its value, and most categories have one text only.
The trees of a source keep tokens of the source, and a call keeps its closing parenthesis and a
return its keyword. So the texts in such a tree tell all about its tokens except for their lines.
-/

namespace Moonbridge

/-- A token whose text is a lexeme of its category and its value. -/
def Token.Genuine (t : Token) : Prop := Lexer.Lexeme t.lexeme.toList t.kind t.literal

/-- The token at the front of a text, on a given line. -/
def Token.ofText? (text : String) (line : Int) : Option Token :=
  match text.toList with
  | [] => none
  | c :: rest =>
    match Lexer.cut c rest with
    | .ok t => some ⟨t.kind, String.ofList t.text, Lexer.literal t.kind t.text, line⟩
    | .error _ => none

section Tokens

/-- A lexeme is cut off as a whole where nothing follows it. -/
theorem Lexer.Lexeme.cut_self {text : List Char} {kind : Kind} {value : Literal}
    (h : Lexeme text kind value) : ∃ c rest, text = c :: rest ∧
      cut c rest = .ok ⟨kind, text, []⟩ ∧ literal kind text = value := by
  obtain ⟨c, rest, htext, -⟩ := h.covers []
  have hcut := h.cut_eq htext fun _ hprefix => by simpa using hprefix.length_le
  exact ⟨c, rest, by simpa using htext, hcut⟩

/-- A token is read back from its text, on any line. -/
theorem Token.Genuine.ofText?_lexeme {t : Token} (h : t.Genuine) (line : Int) :
    Token.ofText? t.lexeme line = some { t with line := line } := by
  obtain ⟨c, rest, htext, hcut, hvalue⟩ := Lexer.Lexeme.cut_self h
  have hlexeme : String.ofList (c :: rest) = t.lexeme := by rw [← htext, String.ofList_toList]
  rw [htext] at hcut hvalue
  simp only [Token.ofText?, htext, hcut, hlexeme, hvalue]

/-- The texts of the categories that have one text each. -/
def Lexer.fixedTexts : List (String × Kind) :=
  keywords ++ symbols.map fun p => (String.ofList p.1, p.2)

/-- The same fixed text is never listed under two categories. -/
theorem Lexer.fixedTexts_unique :
    ∀ p ∈ fixedTexts, ∀ q ∈ fixedTexts, p.2 = q.2 → p.1 = q.1 := by
  decide +kernel

/-- No fixed text is listed as a string, a number or an identifier. -/
theorem Lexer.fixedTexts_kind :
    ∀ p ∈ fixedTexts, p.2 ∉ [.string, .number, .identifier] := by
  decide +kernel

/-- A lexeme is the text of its category, or it is one of many; a name is no keyword. -/
theorem Lexer.Lexeme.listed {text : List Char} {kind : Kind} {value : Literal}
    (h : Lexeme text kind value) : (String.ofList text, kind) ∈ fixedTexts ∨
      (kind ∈ [.string, .number, .identifier] ∧
        (kind = .identifier → ∀ other, (String.ofList text, other) ∉ keywords)) := by
  cases h with
  | keyword listed => exact .inl (List.mem_append_left _ listed)
  | symbol listed => exact .inl (List.mem_append_right _ (List.mem_map.mpr ⟨_, listed, rfl⟩))
  | identifier isWord unlisted => exact .inr ⟨by simp, fun _ => unlisted⟩
  | _ => exact .inr ⟨by simp, by simp⟩

/-- A genuine token has a listed text with its category, or it is a literal or an identifier, and
then its text is no keyword. -/
theorem Token.Genuine.listed {t : Token} (h : t.Genuine) :
    (t.lexeme, t.kind) ∈ Lexer.fixedTexts ∨ (t.kind ∈ [.string, .number, .identifier] ∧
      (t.kind = .identifier → ∀ other, (t.lexeme, other) ∉ Lexer.keywords)) := by
  simpa only [String.ofList_toList] using Lexer.Lexeme.listed h

/-- The text of a token of a category that has one text. -/
theorem Token.Genuine.lexeme_eq {t : Token} (h : t.Genuine) {text : String} {kind : Kind}
    (hlisted : (text, kind) ∈ Lexer.fixedTexts) (hkind : t.kind = kind) : t.lexeme = text := by
  subst hkind
  rcases h.listed with hown | ⟨hmany, -⟩
  · exact Lexer.fixedTexts_unique _ hown _ hlisted rfl
  · exact absurd hmany (Lexer.fixedTexts_kind _ hlisted)

/-- No keyword is the text of an identifier. -/
theorem Token.Genuine.unlisted {t : Token} (h : t.Genuine) (hkind : t.kind = .identifier)
    (kind : Kind) : (t.lexeme, kind) ∉ Lexer.keywords := by
  rcases h.listed with hown | ⟨-, hother⟩
  · exact absurd (by simp [hkind]) (Lexer.fixedTexts_kind _ hown)
  · exact hother hkind kind

/-- All tokens that are cut from a text are genuine. -/
theorem Lexer.Decomposes.genuine {before input : List Char} {tokens : List Token}
    (h : Decomposes before input tokens) : ∀ t ∈ tokens, t.Genuine := by
  induction h with
  | ended isGap => simp
  | token isGap stands tail ih =>
    simp only [List.mem_cons, forall_eq_or_imp]
    exact ⟨by simpa [Token.Genuine] using stands.lexeme, ih⟩

/-- The tokens of a source are genuine, except for the mark of its end. -/
theorem genuine_of_tokenize {source : String} {tokens : List Token}
    (h : tokenize source = .ok tokens) {t : Token} (ht : t ∈ tokens) (hend : t.isEnd = false) :
    t.Genuine := by
  obtain ⟨inner, rfl, -, hdecomposes⟩ := exists_inner_of_tokenize h
  rcases List.mem_append.mp ht with ht | ht
  · exact hdecomposes.genuine t ht
  · obtain rfl := List.mem_singleton.mp ht
    cases hend

end Tokens

mutual

/-- An expression of genuine tokens, in which each call keeps a closing parenthesis. -/
def Expr.Genuine : Expr → Prop
  | .binary left op right => left.Genuine ∧ op.token.Genuine ∧ right.Genuine
  | .grouping inner => inner.Genuine
  | .literal _ => True
  | .unary op operand => op.Genuine ∧ operand.Genuine
  | .name token => token.Genuine
  | .assign target value => target.Genuine ∧ value.Genuine
  | .call callee paren args =>
    callee.Genuine ∧ (paren.Genuine ∧ paren.kind = .rightParen) ∧ Expr.AllGenuine args
  | .table entries => Entry.AllGenuine entries
  | .index table key => table.Genuine ∧ key.Genuine

/-- A table entry of genuine tokens. -/
def Entry.Genuine : Entry → Prop
  | .positional value => value.Genuine
  | .keyed key value => key.Genuine ∧ value.Genuine

/-- Expressions of genuine tokens. -/
def Expr.AllGenuine : List Expr → Prop
  | [] => True
  | e :: es => e.Genuine ∧ Expr.AllGenuine es

/-- Table entries of genuine tokens. -/
def Entry.AllGenuine : List Entry → Prop
  | [] => True
  | e :: es => e.Genuine ∧ Entry.AllGenuine es

end

mutual

/-- A statement of genuine tokens, in which each return keeps its keyword. -/
def Stmt.Genuine : Stmt → Prop
  | .expression expr => expr.Genuine
  | .function name params body =>
    name.Genuine ∧ (∀ p ∈ params, p.Genuine) ∧ Stmt.AllGenuine body
  | .conditional cond thenBranch none => cond.Genuine ∧ thenBranch.Genuine
  | .conditional cond thenBranch (some elseBranch) =>
    cond.Genuine ∧ thenBranch.Genuine ∧ elseBranch.Genuine
  | .returned keyword value =>
    (keyword.Genuine ∧ keyword.kind = .returnKeyword) ∧ ∀ e ∈ value, e.Genuine
  | .declared name initial => name.Genuine ∧ ∀ e ∈ initial, e.Genuine
  | .loop cond body => cond.Genuine ∧ body.Genuine
  | .block body => Stmt.AllGenuine body

/-- Statements of genuine tokens. -/
def Stmt.AllGenuine : List Stmt → Prop
  | [] => True
  | s :: ss => s.Genuine ∧ Stmt.AllGenuine ss

end

/-- Expressions are genuine if each of them is. -/
theorem Expr.allGenuine_iff {es : List Expr} : Expr.AllGenuine es ↔ ∀ e ∈ es, e.Genuine := by
  induction es with
  | nil => simp [Expr.AllGenuine]
  | cons e es ih => simp [Expr.AllGenuine, ih]

/-- Entries are genuine if each of them is. -/
theorem Entry.allGenuine_iff {es : List Entry} : Entry.AllGenuine es ↔ ∀ e ∈ es, e.Genuine := by
  induction es with
  | nil => simp [Entry.AllGenuine]
  | cons e es ih => simp [Entry.AllGenuine, ih]

/-- Statements are genuine if each of them is. -/
theorem Stmt.allGenuine_iff {ss : List Stmt} : Stmt.AllGenuine ss ↔ ∀ s ∈ ss, s.Genuine := by
  induction ss with
  | nil => simp [Stmt.AllGenuine]
  | cons s ss ih => simp [Stmt.AllGenuine, ih]

namespace Grammar

/-- What a category says about the tokens in the trees of its phrases. -/
def Category.Genuine : (c : Category) → c.Tree → Prop
  | .primary, (e : Expr) | .call, e | .tier _, e | .expression, e => e.Genuine
  | .arguments, (es : List Expr) => ∀ e ∈ es, e.Genuine
  | .entry, (e : Entry) => e.Genuine
  | .fields, (es : List Entry) => ∀ e ∈ es, e.Genuine
  | .parameters, (ts : List Token) => ∀ t ∈ ts, t.Genuine
  | .statement, (s : Stmt) | .declaration, s => s.Genuine
  | .declarations, (ss : List Stmt) => ∀ s ∈ ss, s.Genuine

namespace Phrase

/-- The tree of an assignment is genuine if both sides are, even where the target is rejected. -/
theorem genuine_assignedTree {target value : Expr} (ht : target.Genuine) (hv : value.Genuine) :
    (assignedTree target value).Genuine := by
  unfold assignedTree
  split
  · exact ⟨ht, hv⟩
  · exact ht

/-- The tree of a phrase of genuine tokens keeps them in their places. -/
theorem genuine {c : Category} (d : Phrase c) (h : ∀ t ∈ d.tokens, t.Genuine) :
    c.Genuine d.tree := by
  induction d with
  | assigned target equals value iht ihv =>
    have ht := iht fun t ht => h t (List.mem_append_left _ ht)
    have hv := ihv fun t ht => h t (List.mem_append_right _ (List.mem_cons_of_mem _ ht))
    exact genuine_assignedTree ht hv
  | called callee opened closed ih =>
    have hcallee := ih fun t ht => h t (by simp [tokens, ht])
    exact ⟨hcallee, ⟨h closed.1 (by simp [tokens]), closed.2⟩, trivial⟩
  | calledWith callee opened args closed ihc iha =>
    have hcallee := ihc fun t ht => h t (by simp [tokens, ht])
    have hargs := iha fun t ht => h t (by simp [tokens, ht])
    exact ⟨hcallee, ⟨h closed.1 (by simp [tokens]), closed.2⟩, Expr.allGenuine_iff.mpr hargs⟩
  | returned keyword semicolon =>
    exact ⟨⟨h keyword.1 (by simp [tokens]), keyword.2⟩, by simp⟩
  | returnedValue keyword value semicolon ih =>
    have hvalue := ih fun t ht => h t (by simp [tokens, ht])
    refine ⟨⟨h keyword.1 (by simp [tokens]), keyword.2⟩, ?_⟩
    rintro _ ⟨⟩
    exact hvalue
  | literal t h => trivial
  | nil t => trivial
  | _ =>
    -- All other trees keep tokens of any kind.
    simp only [Category.Genuine, tree, tokens, Expr.Genuine, Entry.Genuine, Stmt.Genuine,
      Entry.allGenuine_iff, Stmt.allGenuine_iff] at *
    grind

end Phrase

end Grammar

open Grammar

/-- The statements of the program of a source keep tokens of the source. -/
theorem genuine_of_programOf {source : String} {program : Program}
    (h : programOf source = .ok program) : ∀ s ∈ program, s.Genuine := by
  obtain ⟨tokens, htokens, hparse⟩ := programOf_eq_ok_iff.mp h
  obtain ⟨ds, rfl, -, hds⟩ := declarations_of_parse hparse
  intro s hs
  obtain ⟨d, hd, rfl⟩ := List.mem_map.mp hs
  refine d.genuine fun t ht => ?_
  obtain ⟨hmem, hend⟩ := hds d hd t ht
  exact genuine_of_tokenize htokens hmem hend

end Moonbridge
