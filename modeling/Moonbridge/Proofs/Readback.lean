import Moonbridge.Proofs.Grammar.Genuine
import Moonbridge.Proofs.Node.Typed
import Moonbridge.Proofs.Tree.Recorded

/-!
# Reading programs back from their dumps

A dump writes the texts of names and operators, and it writes null for a part that is absent, for
the key of a positional entry and for the value nil. Still the tree can be read back from it with
all the lines that it gives: texts are lexemes of one category, and no node is null. So programs of
sources have the same dump only if they are the same up to the lines that a dump leaves out.
-/

namespace Moonbridge

section Decoder

/-- The operator that a text writes. -/
def Operator.ofText? (text : String) : Option Operator :=
  (Token.ofText? text 0).bind Operator.ofToken?

/-- A literal value, read from its dump. -/
def Literal.ofDump? : Json → Option Literal
  | .null => some .nil
  | .string value => some (.text value)
  | .number value => some (.number value)
  | _ => none

/-- A parameter, read from its text. -/
def Token.ofDump? : Json → Option Token
  | .string text => Token.ofText? text 0
  | _ => none

mutual

/-- An expression, read from its dump. -/
def Expr.ofDump? : Json → Option Expr
  | .object [("_type", .string "Binary"), ("left", left), ("op", .string op), ("right", right)] =>
    return .binary (← Expr.ofDump? left) (← Operator.ofText? op) (← Expr.ofDump? right)
  | .object [("_type", .string "Grouping"), ("expr", inner)] =>
    return .grouping (← Expr.ofDump? inner)
  | .object [("_type", .string "Literal"), ("value", value)] =>
    return .literal (← Literal.ofDump? value)
  | .object [("_type", .string "Unary"), ("op", .string op), ("operand", operand)] =>
    return .unary (← Token.ofText? op 0) (← Expr.ofDump? operand)
  | .object [("_type", .string "Variable"), ("name", .string name), ("line", .int line)] =>
    return .name (← Token.ofText? name line)
  | .object [("_type", .string "Assign"), ("name", .string name), ("value", value)] =>
    return .assign (← Token.ofText? name 0) (← Expr.ofDump? value)
  | .object [("_type", .string "Call"), ("callee", callee), ("args", .array args),
      ("line", .int line)] =>
    return .call (← Expr.ofDump? callee) (← Token.ofText? ")" line) (← Expr.ofDumps? args)
  | .object [("_type", .string "Table"), ("entries", .array entries)] =>
    return .table (← Entry.ofDumps? entries)
  | .object [("_type", .string "Index"), ("table", table), ("key", key)] =>
    return .index (← Expr.ofDump? table) (← Expr.ofDump? key)
  | _ => none

/-- A table entry, read from its dump. It has a key unless that is null. -/
def Entry.ofDump? : Json → Option Entry
  | .object [("key", .null), ("value", value)] => return .positional (← Expr.ofDump? value)
  | .object [("key", key), ("value", value)] =>
    return .keyed (← Expr.ofDump? key) (← Expr.ofDump? value)
  | _ => none

/-- Expressions, read from their dumps. -/
def Expr.ofDumps? : List Json → Option (List Expr)
  | [] => some []
  | dump :: dumps => return (← Expr.ofDump? dump) :: (← Expr.ofDumps? dumps)

/-- Table entries, read from their dumps. -/
def Entry.ofDumps? : List Json → Option (List Entry)
  | [] => some []
  | dump :: dumps => return (← Entry.ofDump? dump) :: (← Entry.ofDumps? dumps)

end

/-- A part that may be absent, read from its dump. -/
def Expr.optionOfDump? : Json → Option (Option Expr)
  | .null => some none
  | dump => return some (← Expr.ofDump? dump)

mutual

/-- A statement, read from its dump. -/
def Stmt.ofDump? : Json → Option Stmt
  | .object [("_type", .string "ExpressionStmt"), ("expr", expr)] =>
    return .expression (← Expr.ofDump? expr)
  | .object [("_type", .string "Function"), ("name", .string name), ("params", .array params),
      ("body", .array body), ("line", .int line)] =>
    return .function (← Token.ofText? name line) (← params.mapM Token.ofDump?)
      (← Stmt.ofDumps? body)
  | .object [("_type", .string "If"), ("cond", cond), ("then", thenBranch), ("else", .null)] =>
    return .conditional (← Expr.ofDump? cond) (← Stmt.ofDump? thenBranch) none
  | .object [("_type", .string "If"), ("cond", cond), ("then", thenBranch),
      ("else", elseBranch)] => do
    let cond ← Expr.ofDump? cond
    let thenBranch ← Stmt.ofDump? thenBranch
    return .conditional cond thenBranch (some (← Stmt.ofDump? elseBranch))
  | .object [("_type", .string "Return"), ("value", value), ("line", .int line)] =>
    return .returned (← Token.ofText? "return" line) (← Expr.optionOfDump? value)
  | .object [("_type", .string "Var"), ("name", .string name), ("initializer", initial),
      ("line", .int line)] =>
    return .declared (← Token.ofText? name line) (← Expr.optionOfDump? initial)
  | .object [("_type", .string "While"), ("cond", cond), ("body", body)] =>
    return .loop (← Expr.ofDump? cond) (← Stmt.ofDump? body)
  | .object [("_type", .string "Block"), ("statements", .array body)] =>
    return .block (← Stmt.ofDumps? body)
  | _ => none

/-- Statements, read from their dumps. -/
def Stmt.ofDumps? : List Json → Option (List Stmt)
  | [] => some []
  | dump :: dumps => return (← Stmt.ofDump? dump) :: (← Stmt.ofDumps? dumps)

end

/-- A program, read from its dump. -/
def Program.ofDump? : Json → Option Program
  | .array dumps => Stmt.ofDumps? dumps
  | _ => none

end Decoder

section Tokens

variable {t : Token}

/-- A token is read back from its text on its own line. -/
theorem Token.Genuine.ofText?_line (h : t.Genuine) : Token.ofText? t.lexeme t.line = some t :=
  h.ofText?_lexeme t.line

/-- A token is read back from its text on no line. -/
theorem Token.Genuine.ofText?_unplaced (h : t.Genuine) :
    Token.ofText? t.lexeme 0 = some (Relabeling.unplaced.token t) :=
  h.ofText?_lexeme 0

/-- A token of a category that has one text is read back from that text. -/
theorem Token.Genuine.ofText?_listed (h : t.Genuine) {text : String} {kind : Kind}
    (hlisted : (text, kind) ∈ Lexer.fixedTexts) (hkind : t.kind = kind) :
    Token.ofText? text t.line = some t := by
  rw [← h.lexeme_eq hlisted hkind, h.ofText?_line]

/-- The text of a genuine operator tells which one it is. -/
theorem Operator.ofText?_lexeme {op : Operator} (h : op.token.Genuine) :
    Operator.ofText? op.token.lexeme = some (op.relabel .unplaced) := by
  rw [Operator.ofText?, h.ofText?_unplaced, Option.bind_some, Operator.ofToken?_token,
    Parser.ofToken?_token, Option.map_some]

/-- Genuine parameters are read back from their names, without their lines. -/
theorem Token.mapM_ofDump? {params : List Token} (h : ∀ p ∈ params, p.Genuine) :
    (params.map fun p => Json.string p.lexeme).mapM Token.ofDump? =
      some (params.map Relabeling.unplaced.token) := by
  induction params with
  | nil => rfl
  | cons p params ih =>
    rw [List.forall_mem_cons] at h
    rw [List.map_cons, List.mapM_cons, Token.ofDump?, h.1.ofText?_unplaced, ih h.2]
    rfl

end Tokens

section Trees

/-- A literal is read back from its dump. -/
theorem Literal.ofDump?_dump (value : Literal) : Literal.ofDump? value.dump = some value := by
  cases value <;> rfl

/-- The dump of an expression is not null, so that an entry with a key is told from one without,
whatever the key is. -/
theorem Entry.ofDump?_keyed (key : Expr) (value : Json) :
    Entry.ofDump? (.object [("key", key.dump), ("value", value)]) =
      (do return .keyed (← Expr.ofDump? key.dump) (← Expr.ofDump? value)) := by
  cases key <;> rfl

mutual

/-- An expression of genuine tokens is read back from its dump, with the lines that this gives. -/
theorem Expr.ofDump?_dump : ∀ {e : Expr}, e.Genuine → Expr.ofDump? e.dump = some e.recorded
  | .binary left op right, ⟨hl, hop, hr⟩ => by
    rw [Expr.dump, Json.node, Expr.ofDump?, Expr.ofDump?_dump hl, Operator.ofText?_lexeme hop,
      Expr.ofDump?_dump hr]
    rfl
  | .grouping inner, h => by
    rw [Expr.dump, Json.node, Expr.ofDump?, Expr.ofDump?_dump (e := inner) h]
    rfl
  | .literal value, _ => by
    rw [Expr.dump, Json.node, Expr.ofDump?, value.ofDump?_dump]
    rfl
  | .unary op operand, ⟨hop, h⟩ => by
    rw [Expr.dump, Json.node, Expr.ofDump?, hop.ofText?_unplaced, Expr.ofDump?_dump h]
    rfl
  | .name token, h => by
    rw [Expr.dump, Json.node, Expr.ofDump?, Token.Genuine.ofText?_line h]
    rfl
  | .assign target value, ⟨ht, hv⟩ => by
    rw [Expr.dump, Json.node, Expr.ofDump?, ht.ofText?_unplaced, Expr.ofDump?_dump hv]
    rfl
  | .call callee paren args, ⟨hcallee, ⟨hparen, hkind⟩, hargs⟩ => by
    have hclosed : Token.ofText? ")" paren.line = some paren :=
      hparen.ofText?_listed (by decide) hkind
    rw [Expr.dump, Json.node, Expr.ofDump?, Expr.ofDump?_dump hcallee, hclosed,
      Expr.ofDumps?_dumps hargs]
    rfl
  | .table entries, h => by
    rw [Expr.dump, Json.node, Expr.ofDump?, Entry.ofDumps?_dumps h]
    rfl
  | .index table key, ⟨ht, hk⟩ => by
    rw [Expr.dump, Json.node, Expr.ofDump?, Expr.ofDump?_dump ht, Expr.ofDump?_dump hk]
    rfl

/-- A genuine entry is read back from its dump, as far as it is recorded. -/
theorem Entry.ofDump?_dump : ∀ {e : Entry}, e.Genuine → Entry.ofDump? e.dump = some e.recorded
  | .positional value, h => by
    rw [Entry.dump, Entry.ofDump?, Expr.ofDump?_dump (e := value) h]
    rfl
  | .keyed key value, ⟨hk, hv⟩ => by
    rw [Entry.dump, Entry.ofDump?_keyed, Expr.ofDump?_dump hk, Expr.ofDump?_dump hv]
    rfl

/-- Genuine expressions are read back from their dumps, as far as they are recorded. -/
theorem Expr.ofDumps?_dumps : ∀ {es : List Expr}, Expr.AllGenuine es →
    Expr.ofDumps? (Expr.dumps es) = some (Expr.recordedAll es)
  | [], _ => rfl
  | e :: es, ⟨h, hs⟩ => by
    rw [Expr.dumps, Expr.ofDumps?, Expr.ofDump?_dump h, Expr.ofDumps?_dumps hs]
    rfl

/-- Genuine entries are read back from their dumps, as far as they are recorded. -/
theorem Entry.ofDumps?_dumps : ∀ {es : List Entry}, Entry.AllGenuine es →
    Entry.ofDumps? (Entry.dumps es) = some (Entry.recordedAll es)
  | [], _ => rfl
  | e :: es, ⟨h, hs⟩ => by
    rw [Entry.dumps, Entry.ofDumps?, Entry.ofDump?_dump h, Entry.ofDumps?_dumps hs]
    rfl

end

/-- The dump of an expression is not null, so that a part is told from an absent one. -/
theorem Expr.optionOfDump?_dump {o : Option Expr} (h : ∀ e ∈ o, e.Genuine) :
    Expr.optionOfDump? (.ofOption (o.map Expr.dump)) = some (o.map Expr.recorded) := by
  cases o with
  | none => rfl
  | some e =>
    have hsome : Expr.optionOfDump? e.dump = (do return some (← Expr.ofDump? e.dump)) := by
      cases e <;> rfl
    rw [Option.map_some, Json.ofOption, hsome, Expr.ofDump?_dump (h e rfl)]
    rfl

/-- The dump of a statement is not null, so that a conditional with an alternative is told from one
without. -/
theorem Stmt.ofDump?_alternative (cond thenBranch : Json) (elseBranch : Stmt) :
    Stmt.ofDump? (.node "If" [("cond", cond), ("then", thenBranch), ("else", elseBranch.dump)]) =
      (do
        let cond ← Expr.ofDump? cond
        let thenBranch ← Stmt.ofDump? thenBranch
        return .conditional cond thenBranch (some (← Stmt.ofDump? elseBranch.dump))) := by
  cases elseBranch with
  | conditional c t o => cases o <;> rfl
  | _ => rfl

mutual

/-- A statement of genuine tokens is read back from its dump, with the lines that this gives. -/
theorem Stmt.ofDump?_dump : ∀ {s : Stmt}, s.Genuine → Stmt.ofDump? s.dump = some s.recorded
  | .expression expr, h => by
    rw [Stmt.dump, Json.node, Stmt.ofDump?, Expr.ofDump?_dump (e := expr) h]
    rfl
  | .function name params body, ⟨hname, hparams, hbody⟩ => by
    rw [Stmt.dump, Json.node, Stmt.ofDump?, hname.ofText?_line, Token.mapM_ofDump? hparams,
      Stmt.ofDumps?_dumps hbody]
    rfl
  | .conditional cond thenBranch none, ⟨hcond, hthen⟩ => by
    rw [Stmt.dump, Json.node, Stmt.ofDump?, Expr.ofDump?_dump hcond, Stmt.ofDump?_dump hthen]
    rfl
  | .conditional cond thenBranch (some elseBranch), ⟨hcond, hthen, helse⟩ => by
    rw [Stmt.dump, Stmt.ofDump?_alternative, Expr.ofDump?_dump hcond, Stmt.ofDump?_dump hthen,
      Stmt.ofDump?_dump helse]
    rfl
  | .returned keyword value, ⟨⟨hkeyword, hkind⟩, hvalue⟩ => by
    have hreturn : Token.ofText? "return" keyword.line = some keyword :=
      hkeyword.ofText?_listed (by decide) hkind
    rw [Stmt.dump, Json.node, Stmt.ofDump?, hreturn, Expr.optionOfDump?_dump hvalue]
    rfl
  | .declared name initial, ⟨hname, hinitial⟩ => by
    rw [Stmt.dump, Json.node, Stmt.ofDump?, hname.ofText?_line, Expr.optionOfDump?_dump hinitial]
    rfl
  | .loop cond body, ⟨hcond, hbody⟩ => by
    rw [Stmt.dump, Json.node, Stmt.ofDump?, Expr.ofDump?_dump hcond, Stmt.ofDump?_dump hbody]
    rfl
  | .block body, h => by
    rw [Stmt.dump, Json.node, Stmt.ofDump?, Stmt.ofDumps?_dumps h]
    rfl

/-- Genuine statements are read back from their dumps, as far as they are recorded. -/
theorem Stmt.ofDumps?_dumps : ∀ {ss : List Stmt}, Stmt.AllGenuine ss →
    Stmt.ofDumps? (Stmt.dumps ss) = some (Stmt.recordedAll ss)
  | [], _ => rfl
  | s :: ss, ⟨h, hs⟩ => by
    rw [Stmt.dumps, Stmt.ofDumps?, Stmt.ofDump?_dump h, Stmt.ofDumps?_dumps hs]
    rfl

end

end Trees

section Sources

variable {source source' : String} {program program' : Program}

/-- The program of a source is read back from its dump, with the lines that the dump gives. -/
theorem ofDump?_of_programOf (h : programOf source = .ok program) :
    Program.ofDump? (dumpProgram program) = some (program.map Stmt.recorded) := by
  have hgenuine := Stmt.allGenuine_iff.mpr (genuine_of_programOf h)
  rw [dumpProgram, ← Stmt.dumps_eq_map, Program.ofDump?, Stmt.ofDumps?_dumps hgenuine,
    Stmt.recordedAll_eq_map]

/-- Programs of sources have one dump exactly if they are the same with the lines that it gives. -/
theorem dumpProgram_eq_iff (h : programOf source = .ok program)
    (h' : programOf source' = .ok program') :
    dumpProgram program = dumpProgram program' ↔
      program.map Stmt.recorded = program'.map Stmt.recorded := by
  constructor
  · intro hdump
    have hread := congrArg Program.ofDump? hdump
    rw [ofDump?_of_programOf h, ofDump?_of_programOf h'] at hread
    exact Option.some.inj hread
  · intro hrecorded
    rw [← dumpProgram_recorded program, hrecorded, dumpProgram_recorded]

end Sources

/-- A dump is faithful. The program of a source is read back from its dump, up to the lines that
the dump leaves out. So programs of sources with one dump are the same with the lines that it gives,
hence the same up to lines, and they have one code. -/
theorem dump_faithful {source source' : String} {program program' : Program}
    (h : programOf source = .ok program) (h' : programOf source' = .ok program') :
    (Program.ofDump? (dumpProgram program) = some (program.map Stmt.recorded) ∧
      (program.map Stmt.recorded).map (Stmt.relabel .unplaced) =
        program.map (Stmt.relabel .unplaced)) ∧
    (dumpProgram program = dumpProgram program' ↔
      program.map Stmt.recorded = program'.map Stmt.recorded) ∧
    (dumpProgram program = dumpProgram program' →
      program.map (Stmt.relabel .unplaced) = program'.map (Stmt.relabel .unplaced) ∧
        JavaScript.program program = JavaScript.program program') := by
  refine ⟨⟨ofDump?_of_programOf h, Program.relabel_recorded program⟩, dumpProgram_eq_iff h h',
    fun hdump => ?_⟩
  have hsame : program.map (Stmt.relabel .unplaced) = program'.map (Stmt.relabel .unplaced) := by
    rw [← Program.relabel_recorded program, (dumpProgram_eq_iff h h').mp hdump,
      Program.relabel_recorded]
  refine ⟨hsame, ?_⟩
  rw [← JavaScript.program_relabel .unplaced program, hsame, JavaScript.program_relabel]

section Sample

/-- The tokens of `x = y;`, with the first on one line and the others on another. -/
def brokenTokens (first line : Int) : List Token :=
  [⟨.identifier, "x", .nil, first⟩, ⟨.assign, "=", .nil, line⟩, ⟨.identifier, "y", .nil, line⟩,
    ⟨.semicolon, ";", .nil, line⟩, ⟨.endOfInput, "", .nil, line⟩]

/-- The tree of these tokens. -/
def brokenTree (first line : Int) : Stmt :=
  .expression (.assign ⟨.identifier, "x", .nil, first⟩ (.name ⟨.identifier, "y", .nil, line⟩))

/-- An assignment over two lines is read, whichever lines they are. -/
private theorem programOf_of_brokenTokens {source : String} {first line : Int}
    (h : tokenize source = .ok (brokenTokens first line)) :
    programOf source = .ok [brokenTree first line] := by
  let d := Parser.assignName ⟨⟨.identifier, "x", .nil, first⟩, rfl⟩
    ⟨⟨.assign, "=", .nil, line⟩, rfl⟩ ⟨⟨.identifier, "y", .nil, line⟩, rfl⟩
    ⟨⟨.semicolon, ";", .nil, line⟩, rfl⟩
  have haccepted : ∀ d' ∈ [d], Parser.Accepted d' := by
    intro d' hd'
    obtain rfl := List.mem_singleton.mp hd'
    exact Parser.accepted_assignName _ _ _ _
  exact programOf_eq_ok_iff.mpr
    ⟨_, h, (Parser.parse_of_accepted haccepted ⟨.endOfInput, "", .nil, line⟩ rfl []).1⟩

private theorem programOf_break_behind : programOf "x\n= y;" = .ok [brokenTree 1 2] :=
  programOf_of_brokenTokens (by decide +kernel)

private theorem programOf_break_before : programOf "\nx = y;" = .ok [brokenTree 2 2] :=
  programOf_of_brokenTokens (by decide +kernel)

end Sample

/-- The line of a name that is assigned to is not given. A line break in front of the name and one
behind it make different programs with one dump and one code. -/
theorem dump_faithful_line_break :
    programOf "x\n= y;" = .ok [brokenTree 1 2] ∧ programOf "\nx = y;" = .ok [brokenTree 2 2] ∧
      dumpProgram [brokenTree 1 2] = dumpProgram [brokenTree 2 2] ∧
      Program.ofDump? (dumpProgram [brokenTree 1 2]) = some [brokenTree 0 2] ∧
      JavaScript.program [brokenTree 1 2] = JavaScript.program [brokenTree 2 2] := by
  obtain ⟨⟨hread, -⟩, hdump, hcode⟩ := dump_faithful programOf_break_behind programOf_break_before
  have hsame := hdump.mpr rfl
  exact ⟨programOf_break_behind, programOf_break_before, hsame, hread, (hcode hsame).2⟩

end Moonbridge
