import Moonbridge.Proofs.JavaScript.Reader
import Moonbridge.Tree.Basic

/-!
# The meaning of an expression in JavaScript

The image of an expression is the tree that its code should be read as. Groupings are left out,
operators and literals have their counterparts, and `print` is the method `log` of the console.
A table without keys is an array and any other table an object, in which the positional entries
count from one.
-/

namespace Moonbridge.JavaScript

/-- The counterpart of an operator. Equality is the strict one. -/
def operation : BinaryOp → Operation
  | .plus => .add
  | .minus => .subtract
  | .times => .multiply
  | .divide => .divide
  | .equal => .strictlyEqual
  | .notEqual => .strictlyUnequal
  | .less => .less
  | .lessEqual => .lessEqual
  | .greater => .greater
  | .greaterEqual => .greaterEqual
  | .and => .and
  | .or => .or

/-- The counterpart of a literal. There is no literal for an infinite number, but a name. -/
def literalImage : Literal → Term
  | .nil => .word "null"
  | .text value => .text value
  | .number value => if value.isInfinite then .word "Infinity" else .number value

/-- The method that `print` becomes. -/
def consoleLog : Term := .member (.word "console") (.text "log")

/-- What is called, given the image of the callee. -/
def calleeImage (callee : Expr) (term : Term) : Term :=
  match callee with
  | .name token => if token.lexeme = "print" then consoleLog else term
  | _ => term

/-- The key of a property, given the image of the key's expression: a literal is itself. -/
def keyImage (key : Expr) (term : Term) : Key :=
  match key with
  | .literal .nil => .word "null"
  | .literal (.text value) => .text value
  | .literal (.number value) => if value.isInfinite then .word "Infinity" else .number value
  | _ => .computed term

/-- The key of the positional entry that is the `i`-th one. -/
def positionKey (i : Nat) : Key := .number (Double.ofRatio i 1)

mutual

/-- The image of an expression. -/
def image : Expr → Term
  | .binary left op right => .binary (image left) (operation op.op) (image right)
  | .grouping inner => image inner
  | .literal value => literalImage value
  | .unary _ operand => .negate (image operand)
  | .name token => .word token.lexeme
  | .assign target value => .assign (.word target.lexeme) (image value)
  | .call callee _ args => .call (calleeImage callee (image callee)) (images args)
  | .table entries =>
    if entries.any Entry.isKeyed then .object (propertyImages 1 entries)
    else .array (elementImages entries)
  | .index table key => .member (image table) (image key)

/-- The images of expressions in order. -/
def images : List Expr → List Term
  | [] => []
  | e :: es => image e :: images es

/-- The images of the values of entries in order. -/
def elementImages : List Entry → List Term
  | [] => []
  | .positional value :: es => image value :: elementImages es
  | .keyed _ value :: es => image value :: elementImages es

/-- The properties of entries in order, of which the next positional one has the given number. -/
def propertyImages (next : Nat) : List Entry → List Property
  | [] => []
  | .positional value :: es => .mk (positionKey next) (image value) :: propertyImages (next + 1) es
  | .keyed key value :: es => .mk (keyImage key (image key)) (image value) :: propertyImages next es

end

end Moonbridge.JavaScript
