import Moonbridge.Dump
import Moonbridge.Proofs.Layout

/-!
# What a dump records of a tree

A dump gives the lines of names that are read, of calls, functions, returns and local declarations.
It leaves out those of operators, of names that are assigned to and of parameters. A tree without
the lines that are left out has the dump of the tree, and it differs from the tree in lines only.
-/

namespace Moonbridge

mutual

/-- An expression with the lines that a dump gives. The other tokens stand on no line. -/
def Expr.recorded : Expr → Expr
  | .binary left op right => .binary left.recorded (op.relabel .unplaced) right.recorded
  | .grouping inner => .grouping inner.recorded
  | .literal value => .literal value
  | .unary op operand => .unary (Relabeling.unplaced.token op) operand.recorded
  | .name token => .name token
  | .assign target value => .assign (Relabeling.unplaced.token target) value.recorded
  | .call callee paren args => .call callee.recorded paren (Expr.recordedAll args)
  | .table entries => .table (Entry.recordedAll entries)
  | .index table key => .index table.recorded key.recorded

/-- A table entry with the lines that a dump gives. -/
def Entry.recorded : Entry → Entry
  | .positional value => .positional value.recorded
  | .keyed key value => .keyed key.recorded value.recorded

/-- Expressions with the lines that a dump gives. -/
def Expr.recordedAll : List Expr → List Expr
  | [] => []
  | e :: es => e.recorded :: Expr.recordedAll es

/-- Table entries with the lines that a dump gives. -/
def Entry.recordedAll : List Entry → List Entry
  | [] => []
  | e :: es => e.recorded :: Entry.recordedAll es

end

mutual

/-- A statement with the lines that a dump gives. The other tokens stand on no line. -/
def Stmt.recorded : Stmt → Stmt
  | .expression expr => .expression expr.recorded
  | .function name params body =>
    .function name (params.map Relabeling.unplaced.token) (Stmt.recordedAll body)
  | .conditional cond thenBranch none => .conditional cond.recorded thenBranch.recorded none
  | .conditional cond thenBranch (some elseBranch) =>
    .conditional cond.recorded thenBranch.recorded (some elseBranch.recorded)
  | .returned keyword value => .returned keyword (value.map Expr.recorded)
  | .declared name initial => .declared name (initial.map Expr.recorded)
  | .loop cond body => .loop cond.recorded body.recorded
  | .block body => .block (Stmt.recordedAll body)

/-- Statements with the lines that a dump gives. -/
def Stmt.recordedAll : List Stmt → List Stmt
  | [] => []
  | s :: ss => s.recorded :: Stmt.recordedAll ss

end

/-- Statements are recorded one by one. -/
theorem Stmt.recordedAll_eq_map (ss : List Stmt) :
    Stmt.recordedAll ss = ss.map Stmt.recorded := by
  induction ss with
  | nil => rfl
  | cons s ss ih => rw [Stmt.recordedAll, ih, List.map_cons]

section Lines

mutual

/-- Without any lines, nothing tells a tree from the one with the recorded lines. -/
theorem Expr.relabel_recorded : ∀ e : Expr, e.recorded.relabel .unplaced = e.relabel .unplaced
  | .binary left op right => by
    rw [Expr.recorded, Expr.relabel, Expr.relabel_recorded left, Expr.relabel_recorded right]
    rfl
  | .grouping inner => by rw [Expr.recorded, Expr.relabel, Expr.relabel_recorded inner]; rfl
  | .literal value => rfl
  | .unary op operand => by
    rw [Expr.recorded, Expr.relabel, Expr.relabel_recorded operand]
    rfl
  | .name token => rfl
  | .assign target value => by
    rw [Expr.recorded, Expr.relabel, Expr.relabel_recorded value]
    rfl
  | .call callee paren args => by
    rw [Expr.recorded, Expr.relabel, Expr.relabel_recorded callee,
      Expr.relabelAll_recordedAll args]
    rfl
  | .table entries => by
    rw [Expr.recorded, Expr.relabel, Entry.relabelAll_recordedAll entries]
    rfl
  | .index table key => by
    rw [Expr.recorded, Expr.relabel, Expr.relabel_recorded table, Expr.relabel_recorded key]
    rfl

/-- Without its lines an entry is all recorded. -/
theorem Entry.relabel_recorded : ∀ e : Entry,
    e.recorded.relabel .unplaced = e.relabel .unplaced
  | .positional value => by
    rw [Entry.recorded, Entry.relabel, Expr.relabel_recorded value]
    rfl
  | .keyed key value => by
    rw [Entry.recorded, Entry.relabel, Expr.relabel_recorded key, Expr.relabel_recorded value]
    rfl

/-- Without their lines expressions are all recorded. -/
theorem Expr.relabelAll_recordedAll : ∀ es : List Expr,
    Expr.relabelAll .unplaced (Expr.recordedAll es) = Expr.relabelAll .unplaced es
  | [] => rfl
  | e :: es => by
    rw [Expr.recordedAll, Expr.relabelAll, Expr.relabel_recorded e,
      Expr.relabelAll_recordedAll es]
    rfl

/-- Without their lines entries are all recorded. -/
theorem Entry.relabelAll_recordedAll : ∀ es : List Entry,
    Entry.relabelAll .unplaced (Entry.recordedAll es) = Entry.relabelAll .unplaced es
  | [] => rfl
  | e :: es => by
    rw [Entry.recordedAll, Entry.relabelAll, Entry.relabel_recorded e,
      Entry.relabelAll_recordedAll es]
    rfl

end

/-- Without its lines an expression that may be absent is all recorded. -/
theorem Expr.map_relabel_recorded (o : Option Expr) :
    (o.map Expr.recorded).map (Expr.relabel .unplaced) = o.map (Expr.relabel .unplaced) := by
  cases o with
  | none => rfl
  | some e => rw [Option.map_some, Option.map_some, e.relabel_recorded, Option.map_some]

mutual

/-- Without its lines a statement is all recorded. -/
theorem Stmt.relabel_recorded : ∀ s : Stmt, s.recorded.relabel .unplaced = s.relabel .unplaced
  | .expression expr => by
    rw [Stmt.recorded, Stmt.relabel, Expr.relabel_recorded]
    rfl
  | .function name params body => by
    rw [Stmt.recorded, Stmt.relabel, Stmt.relabelAll_recordedAll body, List.map_map]
    rfl
  | .conditional cond thenBranch none => by
    rw [Stmt.recorded, Stmt.relabel, Expr.relabel_recorded, Stmt.relabel_recorded thenBranch]
    rfl
  | .conditional cond thenBranch (some elseBranch) => by
    rw [Stmt.recorded, Stmt.relabel, Expr.relabel_recorded, Stmt.relabel_recorded thenBranch,
      Stmt.relabel_recorded elseBranch]
    rfl
  | .returned keyword value => by
    rw [Stmt.recorded, Stmt.relabel, Expr.map_relabel_recorded]
    rfl
  | .declared name initial => by
    rw [Stmt.recorded, Stmt.relabel, Expr.map_relabel_recorded]
    rfl
  | .loop cond body => by
    rw [Stmt.recorded, Stmt.relabel, Expr.relabel_recorded, Stmt.relabel_recorded body]
    rfl
  | .block body => by
    rw [Stmt.recorded, Stmt.relabel, Stmt.relabelAll_recordedAll body]
    rfl

/-- Without their lines statements are all recorded. -/
theorem Stmt.relabelAll_recordedAll : ∀ ss : List Stmt,
    Stmt.relabelAll .unplaced (Stmt.recordedAll ss) = Stmt.relabelAll .unplaced ss
  | [] => rfl
  | s :: ss => by
    rw [Stmt.recordedAll, Stmt.relabelAll, Stmt.relabel_recorded s,
      Stmt.relabelAll_recordedAll ss]
    rfl

end

/-- A program with the recorded lines is the program up to lines. -/
theorem Program.relabel_recorded (program : Program) :
    (program.map Stmt.recorded).map (Stmt.relabel .unplaced) =
      program.map (Stmt.relabel .unplaced) := by
  rw [List.map_map]
  exact List.map_congr_left fun s _ => s.relabel_recorded

end Lines

section Dumps

mutual

/-- A dump gives no other lines than the recorded ones. -/
theorem Expr.dump_recorded : ∀ e : Expr, e.recorded.dump = e.dump
  | .binary left op right => by
    rw [Expr.recorded, Expr.dump, Expr.dump_recorded left, Expr.dump_recorded right]
    rfl
  | .grouping inner => by rw [Expr.recorded, Expr.dump, Expr.dump_recorded inner]; rfl
  | .literal value => rfl
  | .unary op operand => by rw [Expr.recorded, Expr.dump, Expr.dump_recorded operand]; rfl
  | .name token => rfl
  | .assign target value => by rw [Expr.recorded, Expr.dump, Expr.dump_recorded value]; rfl
  | .call callee paren args => by
    rw [Expr.recorded, Expr.dump, Expr.dump_recorded callee, Expr.dumps_recordedAll args]
    rfl
  | .table entries => by rw [Expr.recorded, Expr.dump, Entry.dumps_recordedAll entries]; rfl
  | .index table key => by
    rw [Expr.recorded, Expr.dump, Expr.dump_recorded table, Expr.dump_recorded key]
    rfl

/-- The dump of an entry shows no more than is recorded. -/
theorem Entry.dump_recorded : ∀ e : Entry, e.recorded.dump = e.dump
  | .positional value => by rw [Entry.recorded, Entry.dump, Expr.dump_recorded value]; rfl
  | .keyed key value => by
    rw [Entry.recorded, Entry.dump, Expr.dump_recorded key, Expr.dump_recorded value]
    rfl

/-- The dumps of expressions show no more than is recorded. -/
theorem Expr.dumps_recordedAll : ∀ es : List Expr,
    Expr.dumps (Expr.recordedAll es) = Expr.dumps es
  | [] => rfl
  | e :: es => by
    rw [Expr.recordedAll, Expr.dumps, Expr.dump_recorded e, Expr.dumps_recordedAll es]
    rfl

/-- The dumps of entries show no more than is recorded. -/
theorem Entry.dumps_recordedAll : ∀ es : List Entry,
    Entry.dumps (Entry.recordedAll es) = Entry.dumps es
  | [] => rfl
  | e :: es => by
    rw [Entry.recordedAll, Entry.dumps, Entry.dump_recorded e, Entry.dumps_recordedAll es]
    rfl

end

/-- The dump of an expression that may be absent shows no more than is recorded. -/
theorem Expr.map_dump_recorded (o : Option Expr) :
    (o.map Expr.recorded).map Expr.dump = o.map Expr.dump := by
  cases o with
  | none => rfl
  | some e => rw [Option.map_some, Option.map_some, e.dump_recorded, Option.map_some]

mutual

/-- The dump of a statement shows no more than is recorded. -/
theorem Stmt.dump_recorded : ∀ s : Stmt, s.recorded.dump = s.dump
  | .expression expr => by rw [Stmt.recorded, Stmt.dump, Expr.dump_recorded]; rfl
  | .function name params body => by
    rw [Stmt.recorded, Stmt.dump, Stmt.dumps_recordedAll body, List.map_map]
    rfl
  | .conditional cond thenBranch none => by
    rw [Stmt.recorded, Stmt.dump, Expr.dump_recorded, Stmt.dump_recorded thenBranch]
    rfl
  | .conditional cond thenBranch (some elseBranch) => by
    rw [Stmt.recorded, Stmt.dump, Expr.dump_recorded, Stmt.dump_recorded thenBranch,
      Stmt.dump_recorded elseBranch]
    rfl
  | .returned keyword value => by rw [Stmt.recorded, Stmt.dump, Expr.map_dump_recorded]; rfl
  | .declared name initial => by rw [Stmt.recorded, Stmt.dump, Expr.map_dump_recorded]; rfl
  | .loop cond body => by
    rw [Stmt.recorded, Stmt.dump, Expr.dump_recorded, Stmt.dump_recorded body]
    rfl
  | .block body => by rw [Stmt.recorded, Stmt.dump, Stmt.dumps_recordedAll body]; rfl

/-- The dumps of statements show no more than is recorded. -/
theorem Stmt.dumps_recordedAll : ∀ ss : List Stmt,
    Stmt.dumps (Stmt.recordedAll ss) = Stmt.dumps ss
  | [] => rfl
  | s :: ss => by
    rw [Stmt.recordedAll, Stmt.dumps, Stmt.dump_recorded s, Stmt.dumps_recordedAll ss]
    rfl

end

/-- A program with the recorded lines has the dump of the program. -/
theorem dumpProgram_recorded (program : Program) :
    dumpProgram (program.map Stmt.recorded) = dumpProgram program := by
  rw [dumpProgram, dumpProgram, List.map_map]
  exact congrArg Json.array (List.map_congr_left fun s _ => s.dump_recorded)

end Dumps

end Moonbridge
