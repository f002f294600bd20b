import LakeNative.Runtime.HeapArray

/-! # The frontend's syntax tree

The parts of `lake_frontend`'s AST that the compiler reads: types, patterns,
expressions and the statements among them.
-/

namespace LakeNative.Compiler

open LakeNative.Runtime

/-! ## Types -/

/-- A type and the text that it renders as; `Type::Unknown` renders as `?`. Only the
fields of a `Type::Struct` are looked into. -/
inductive Ty where
  | plain (text : String)
  | struct (text : String) (fields : List Ty)

namespace Ty

def toString : Ty → String
  | plain text => text
  | struct text _ => text

def unknown : Ty := plain "?"

end Ty

/-! ## Patterns -/

inductive PatternKind where
  | var
  | wildcard
  | numGuard (value : Word)
  | strGuard (text : String)
  deriving DecidableEq

structure Pattern where
  ident : String
  ty : Ty
  kind : PatternKind

namespace Pattern

def isWildcard (pattern : Pattern) : Bool :=
  match pattern.kind with
  | .wildcard => true
  | _ => false

def guardI64 (pattern : Pattern) : Option Word :=
  match pattern.kind with
  | .numGuard value => some value
  | _ => none

def guardStr (pattern : Pattern) : Option String :=
  match pattern.kind with
  | .strGuard text => some text
  | _ => none

def isLiteralGuard (pattern : Pattern) : Bool :=
  pattern.guardI64.isSome || pattern.guardStr.isSome

end Pattern

/-! ## Expressions -/

inductive BinaryOp where
  | add | sub | mul | div
  | le | ge | eq | lt | gt
  | bAnd | bOr | bXor | shl | shr
  deriving DecidableEq

/-- `bAnd`, `bOr`, `bXor`, `shl` and `shr`. -/
def BinaryOp.isBitwise : BinaryOp → Bool
  | .bAnd | .bOr | .bXor | .shl | .shr => true
  | _ => false

/-- A `when` has its arms, key and body, and a `wait` its handlers, patterns and body.
`other` is every variant that the compiler knows nothing of, with its parts: paths, method
calls and what the frontend's lowering removes. -/
inductive Expr where
  | num (text : String) (ty : Ty)
  | string (text : String) (ty : Ty)
  | bool (value : Bool)
  | unit
  | atom (name : String)
  | var (name : String) (ty : Ty)
  | jump (ident : Expr) (args : List Expr)
  | tuple (fields : List Expr)
  | tupleIndex (receiver : Expr) (index : Nat)
  | index (receiver : Expr) (index : Expr)
  | neg (inner : Expr)
  | binary (op : BinaryOp) (left right : Expr)
  | letVar (ident : String) (ty : Ty) (default : Option Expr)
  | when (cond : Expr) (branches : List (Expr × List Expr))
  | wait (handlers : List (List Pattern × List Expr)) (filter : List Expr)
  | other (parts : List Expr)

end LakeNative.Compiler
