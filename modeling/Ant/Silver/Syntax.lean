/-! The statements and expressions of a function body, as far as they decide its control flow. -/
namespace Ant.Silver.Syntax

abbrev Label := Nat

mutual

/-- An expression leaves one value on the operand stack or throws. `leaf` is one that needs no operand,
`op` any operation on operands, calls among them. -/
inductive Expr where
  | leaf
  | op (operands : Exprs)
  | ternary (test yes no : Expr)
  | logical (left right : Expr)
  | assign (pattern : Pattern) (value : Expr)

inductive Exprs where
  | nil
  | cons (head : Expr) (tail : Exprs)

/-- What a value is stored to: a variable or property, whose object and key are the operands, a private member,
or a pattern. -/
inductive Pattern where
  | place (operands : Exprs)
  | privateMember (object : Expr)
  | array (elements : Elements)
  | object (properties : Properties)

inductive Elements where
  | nil
  | hole (rest : Elements)
  | item (target : Pattern) (rest : Elements)
  | itemOr (target : Pattern) (fallback : Expr) (rest : Elements)
  | spread (target : Pattern) (rest : Elements)

inductive Properties where
  | nil
  | item (key : Exprs) (target : Pattern) (rest : Properties)
  | itemOr (key : Exprs) (target : Pattern) (fallback : Expr) (rest : Properties)

end

def Exprs.count : Exprs → Nat
  | .nil => 0
  | .cons _ tail => tail.count + 1

mutual

/-- Blocks are sequences. A declaration of `declare` binds the target; the head of a loop over
a collection binds or assigns it. -/
inductive Stmt where
  | empty
  | seq (first second : Stmt)
  | expr (value : Expr)
  | declare (binds : Bool) (target : Pattern) (value : Expr)
  | ifThen (test : Expr) (yes : Stmt)
  | ifElse (test : Expr) (yes no : Stmt)
  | whileLoop (test : Expr) (body : Stmt)
  | doWhile (body : Stmt) (test : Expr)
  | forLoop (init : Stmt) (test update : Option Expr) (body : Stmt)
  | forIn (binds : Bool) (target : Pattern) (source : Expr) (body : Stmt)
  | forOf (binds : Bool) (target : Pattern) (source : Expr) (body : Stmt)
  | ret (value : Option Expr)
  | raise (value : Expr)
  | exit (continues : Bool) (label : Option Label)
  | tryCatch (body : Stmt) (param : Option Pattern) (handler : Stmt)
  | tryFinally (body final : Stmt)
  | tryBoth (body : Stmt) (param : Option Pattern) (handler final : Stmt)
  | switch (value : Expr) (cases : Cases)
  | labelled (label : Label) (body : Stmt)

inductive Cases where
  | nil
  | cons (test : Option Expr) (body : Stmt) (rest : Cases)

end

end Ant.Silver.Syntax
