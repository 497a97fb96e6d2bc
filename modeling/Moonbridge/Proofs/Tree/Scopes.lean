import Moonbridge.Tree.Basic

/-!
# The scopes of a program

The local variables of a program can be counted in two ways. Either every function body and every
block is a scope of its own, or a block that stands among statements belongs to the scope around it,
so that only the bodies of functions, conditionals and loops are scopes within the top level. In
both ways the scopes are listed in the order of their ends, and the top level comes last.
-/

namespace Moonbridge

section Blocks

/-- The local variable that a statement declares, if it is a declaration. -/
def Stmt.local? : Stmt → Option String
  | .declared name _ => some name.lexeme
  | _ => none

mutual

/-- The local variables of the function bodies and blocks in a statement, each counted on its
own. -/
def Stmt.blockScopes : Stmt → List (List String)
  | .expression _ | .returned _ _ | .declared _ _ => []
  | .function _ _ body => Stmt.blockScopesOfAll body ++ [body.filterMap Stmt.local?]
  | .conditional _ thenBranch none => thenBranch.blockScopes
  | .conditional _ thenBranch (some elseBranch) => thenBranch.blockScopes ++ elseBranch.blockScopes
  | .loop _ body => body.blockScopes
  | .block statements => Stmt.blockScopesOfAll statements ++ [statements.filterMap Stmt.local?]

/-- The local variables of the function bodies and blocks in statements. -/
def Stmt.blockScopesOfAll : List Stmt → List (List String)
  | [] => []
  | s :: ss => s.blockScopes ++ Stmt.blockScopesOfAll ss

end

/-- The local variables of each scope, if every block is one. -/
def Program.blockScopes (program : Program) : List (List String) :=
  Stmt.blockScopesOfAll program ++ [program.filterMap Stmt.local?]

end Blocks

section Bodies

mutual

/-- The local variables that a statement adds to the scope it stands in. A block adds those of its
statements. -/
def Stmt.locals : Stmt → List String
  | .declared name _ => [name.lexeme]
  | .block statements => Stmt.localsOfAll statements
  | .expression _ | .function _ _ _ | .conditional _ _ _ | .returned _ _ | .loop _ _ => []

/-- The local variables that statements add to the scope they stand in. -/
def Stmt.localsOfAll : List Stmt → List String
  | [] => []
  | s :: ss => s.locals ++ Stmt.localsOfAll ss

end

mutual

/-- The local variables of the bodies in a statement. -/
def Stmt.bodyScopes : Stmt → List (List String)
  | .expression _ | .returned _ _ | .declared _ _ => []
  | .function _ _ body => Stmt.bodyScopesOfAll body ++ [Stmt.localsOfAll body]
  | .conditional _ thenBranch none => thenBranch.bodyScopes ++ [thenBranch.locals]
  | .conditional _ thenBranch (some elseBranch) =>
    thenBranch.bodyScopes ++ [thenBranch.locals] ++ (elseBranch.bodyScopes ++ [elseBranch.locals])
  | .loop _ body => body.bodyScopes ++ [body.locals]
  | .block statements => Stmt.bodyScopesOfAll statements

/-- The local variables of the bodies in statements. -/
def Stmt.bodyScopesOfAll : List Stmt → List (List String)
  | [] => []
  | s :: ss => s.bodyScopes ++ Stmt.bodyScopesOfAll ss

end

/-- The local variables of each scope, if a block belongs to the scope around it. -/
def Program.bodyScopes (program : Program) : List (List String) :=
  Stmt.bodyScopesOfAll program ++ [Stmt.localsOfAll program]

end Bodies

end Moonbridge
