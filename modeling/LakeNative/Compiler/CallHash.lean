import Mathlib.Tactic.Common
import LakeNative.Compiler.Ast

/-! # Hashing parameters and arguments

A branch's key is the hash of its parameter types; a call's key is the hash of its
argument types. Both write the canonical name of one type after the other into a
`DefaultHasher`.
-/

namespace LakeNative.Compiler

/-- What a fresh `DefaultHasher` finishes with after these strings are hashed. -/
abbrev DefaultHasher := List String → UInt64

/-- The types that share the runtime's 64-bit value are one type to the hash. -/
def canonArgTy (ty : String) : String :=
  match ty with
  | "str" | "atom" | "pid" | "buf" => "i64"
  | other => other

/-! ## Parameters -/

/-- The canonical types of the parameters other than `_`. -/
def paramTypes (patterns : List Pattern) : List String :=
  (patterns.filter fun pattern => !pattern.isWildcard).map fun pattern =>
    canonArgTy pattern.ty.toString

/-- The key of a branch and its `param_count`. -/
def hashPattern (hasher : DefaultHasher) (patterns : List Pattern) : UInt64 × Nat :=
  (hasher (paramTypes patterns), (paramTypes patterns).length)

/-! ## Arguments -/

/-- The type at the end of a chain `x.i.j`, whose leaf has to be a variable. -/
def tupleIndexChainType : Expr → Option Ty
  | .var _ ty => some ty
  | .tupleIndex receiver index =>
      match tupleIndexChainType receiver with
      | some (.struct _ fields) => fields[index]?
      | _ => none
  | _ => none

/-- The type of a variable; `var_types` is asked where the frontend left it open. -/
def varType (varTypes : String → Option String) (name : String) (ty : Ty) : String :=
  if ty.toString = "?" then (varTypes name).getD "?" else ty.toString

/-- The type that one argument contributes to the key; nothing is written for
the kinds that are not listed. -/
def callArgType (varTypes : String → Option String) : Expr → Option String
  | .var name ty => some (varType varTypes name ty)
  | .num _ ty | .string _ ty => some ty.toString
  | .jump (.var _ ty) _ => some ty.toString
  | .tupleIndex receiver index =>
      (tupleIndexChainType (.tupleIndex receiver index)).map Ty.toString
  | .binary _ _ _ | .neg _ | .bool _ => some "i64"
  | _ => none

def hashCallArgs (hasher : DefaultHasher) (args : List Expr)
    (varTypes : String → Option String) : UInt64 :=
  hasher ((args.filterMap (callArgType varTypes)).map canonArgTy)

/-- The type by which one argument is passed: as for the key, but empty for the kinds
that the key leaves out and for bitwise operations. -/
def exprTypeStr (varTypes : String → Option String) : Expr → String
  | .binary op _ _ => if op.isBitwise then "" else "i64"
  | arg => (callArgType varTypes arg).getD ""

def exprTypeStrs (args : List Expr) (varTypes : String → Option String) : List String :=
  args.map (exprTypeStr varTypes)

/-! ## Passing by copy -/

/-- `char::is_whitespace`. -/
def isWhitespace (char : Char) : Bool :=
  let code := char.toNat
  (9 ≤ code && code ≤ 13) || code == 0x20 || code == 0x85 || code == 0xA0 || code == 0x1680 ||
    (0x2000 ≤ code && code ≤ 0x200A) || code == 0x2028 || code == 0x2029 || code == 0x202F ||
    code == 0x205F || code == 0x3000

def trim (text : String) : String :=
  String.ofList (((text.toList.dropWhile isWhitespace).reverse.dropWhile isWhitespace).reverse)

/-- The argument is the address of a fat pointer, whose bytes have to follow it to
another actor's arena. -/
def isPointerLikeType (ty : String) : Bool :=
  match trim ty with
  | "" => false
  | "buf" | "str" => true
  | "i64" | "i32" | "atom" | "pid" | "bool" | "?" => false
  | _ => true

/-! ## Static types -/

/-- The type of a variable or of a field reached from one. -/
inductive ChainType : Expr → Ty → Prop where
  | var {name : String} {ty : Ty} : ChainType (.var name ty) ty
  | field {receiver : Expr} {text : String} {fields : List Ty} {index : Nat} {ty : Ty}
      (chain : ChainType receiver (.struct text fields)) (atIndex : fields[index]? = some ty) :
      ChainType (.tupleIndex receiver index) ty

/-- The static type of an argument: the one the syntax tree annotates, the declared one where that
is open, and for what the tree does not annotate the one of its kind. `tupleText` is how the
frontend writes the type of a tuple with such fields. -/
inductive HasType (tupleText : List String → String) (varTypes : String → Option String) :
    Expr → String → Prop where
  | var {name : String} {ty : Ty} (known : ty.toString ≠ "?") :
      HasType tupleText varTypes (.var name ty) ty.toString
  | declared {name : String} {ty : Ty} {declared : String} (isOpen : ty.toString = "?")
      (isDeclared : varTypes name = some declared) :
      HasType tupleText varTypes (.var name ty) declared
  | num {text : String} {ty : Ty} : HasType tupleText varTypes (.num text ty) ty.toString
  | string {text : String} {ty : Ty} : HasType tupleText varTypes (.string text ty) ty.toString
  | call {callee : Expr} {ty : Ty} {args : List Expr} (chain : ChainType callee ty) :
      HasType tupleText varTypes (.jump callee args) ty.toString
  | field {receiver : Expr} {index : Nat} {ty : Ty}
      (chain : ChainType (.tupleIndex receiver index) ty) :
      HasType tupleText varTypes (.tupleIndex receiver index) ty.toString
  | binary {op : BinaryOp} {left right : Expr} :
      HasType tupleText varTypes (.binary op left right) "i64"
  | neg {inner : Expr} : HasType tupleText varTypes (.neg inner) "i64"
  | bool {value : Bool} : HasType tupleText varTypes (.bool value) "bool"
  | atom {name : String} : HasType tupleText varTypes (.atom name) "atom"
  | unit : HasType tupleText varTypes .unit "\x7b\x7d"
  | tuple {fields : List Expr} {types : List String}
      (typed : List.Forall₂ (HasType tupleText varTypes) fields types) :
      HasType tupleText varTypes (.tuple fields) (tupleText types)
  | index {receiver place : Expr} : HasType tupleText varTypes (.index receiver place) "i64"

/-- What an argument of a static type writes into the key: atoms, units, tuples, indexing and calls
of anything but a name write nothing, and a truth value is a number. -/
def writtenType (ty : String) : Expr → Option String
  | .atom _ | .unit | .tuple _ | .index _ _ => none
  | .jump (.var _ _) _ => some ty
  | .jump _ _ => none
  | .bool _ => some "i64"
  | _ => some ty

/-- What the arguments of a call write, as it is hashed. -/
def writtenTypes (args : List Expr) (types : List String) : List String :=
  ((args.zip types).filterMap fun item => writtenType item.2 item.1).map canonArgTy

theorem ChainType.chainType {expr : Expr} {ty : Ty} (chain : ChainType expr ty) :
    tupleIndexChainType expr = some ty := by
  induction chain with
  | var => rfl
  | field _ atIndex induction =>
      rw [tupleIndexChainType, induction]
      exact atIndex

theorem HasType.callArgType {tupleText : List String → String} {varTypes : String → Option String}
    {arg : Expr} {ty : String} (typed : HasType tupleText varTypes arg ty) :
    callArgType varTypes arg = writtenType ty arg := by
  cases typed with
  | var known => rw [Compiler.callArgType, varType, if_neg known, writtenType.eq_def]
  | declared isOpen isDeclared =>
      rw [Compiler.callArgType, varType, if_pos isOpen, isDeclared]
      rfl
  | field chain =>
      rw [Compiler.callArgType, chain.chainType]
      rfl
  | call chain =>
      cases chain with
      | var => rfl
      | field => rfl
  | num | string | binary | neg | bool | atom | unit | tuple | index => rfl

/-- The key of a call is made of what its arguments write. -/
theorem hashCallArgs_of_types {hasher : DefaultHasher} {tupleText : List String → String}
    {varTypes : String → Option String} {args : List Expr} {types : List String}
    (typed : List.Forall₂ (HasType tupleText varTypes) args types) :
    hashCallArgs hasher args varTypes = hasher (writtenTypes args types) := by
  have same : args.filterMap (callArgType varTypes) =
      (args.zip types).filterMap fun item => writtenType item.2 item.1 := by
    induction typed with
    | nil => rfl
    | cons argTyped _ induction =>
        rw [List.zip_cons_cons, List.filterMap_cons, List.filterMap_cons, argTyped.callArgType,
          induction]
  rw [hashCallArgs, writtenTypes, same]

end LakeNative.Compiler
