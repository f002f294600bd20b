import LakeNative.Compiler.Scoping

/-! # Bindings that have ended

A traversal of the source by names alone. A binding ends with the body of the arm or the
handler that it is in. Until its name is bound again, a reference to the name would mean a
binding further out, or none.
-/

namespace LakeNative.Compiler

/-- The names that are bound in the text so far, latest first, with the types of those that have
one, and the names of which the last binding has ended. -/
structure Names where
  bound : List String
  types : List (String × String)
  ended : List String

namespace Names

def bind (names : Names) (ident : String) (ty : Ty) : Names where
  bound := ident :: names.bound
  types := (ident, ty.toString) :: names.types
  ended := names.ended.filter fun name => name ≠ ident

/-- None of the last bindings has ended. -/
def hold (names : Names) (refs : List String) : Bool := refs.all fun name => name ∉ names.ended

/-- The names that are bound since, latest first. -/
def since (before after : Names) : List String :=
  after.bound.take (after.bound.length - before.bound.length)

/-- Behind a body all its bindings have ended. -/
def leave (before after : Names) : Names :=
  { after with ended := before.since after ++ before.ended }

/-- The first handler of a `wait` that no integer guards names the words of the message. -/
def register (names : Names) (handlers : List (List Pattern × List Expr)) : Names :=
  let named := ((collected handlers).find? fun handler => handler.guard.isNone).elim []
    fun handler => handler.patterns.filter fun pattern =>
      !pattern.isWildcard && !pattern.isLiteralGuard
  { bound := (named.map Pattern.ident).reverse ++ names.bound
    types := (named.map fun pattern => (pattern.ident, pattern.ty.toString)).reverse ++ names.types
    ended := named.map Pattern.ident ++ names.ended }

/-- The place of the last occurrence. -/
def place (list : List String) (name : String) : Option Nat := list.zipIdx.reverse.lookup name

/-- In a handler's body its own names are bound, if it has them at the places at which the `wait`
has bound them. -/
def enter (names : Names) (start : Names) (patterns : List Pattern) : Names :=
  let own := Handler.binders ⟨patterns, []⟩
  { names with ended :=
      (own.filter fun name => place own name ≠ place (start.since names).reverse name) ++
        names.ended.filter fun name => name ∉ own }

/-- The type that a call's name has. -/
def calleeType (names : Names) (callee : String) (ty : Ty) : String :=
  if ty.toString = "?" then (names.types.lookup callee).getD "?" else ty.toString

end Names

/-- What there is behind a statement: the names, whether nothing behind it is compiled, whether
the last bindings of all names that it refers to hold, and whether every `wait` in it names as
many words as each of its handlers takes. -/
structure Walk where
  names : Names
  ends : Bool
  clean : Bool
  named : Bool

def Walk.start (names : Names) : Walk := ⟨names, false, true, true⟩

section Walk

variable (ctx : CompilerCtx)

mutual
def walkExpr (names : Names) : Expr → Walk
  | .letVar ident ty (some default) =>
      let value := walkExpr names default
      if value.ends then value else { value with names := value.names.bind ident ty }
  | .letVar ident ty none => .start (names.bind ident ty)
  | .jump (.var callee ty) args =>
      if isPure (.jump (.var callee ty) args) then
        { Walk.start names with clean := names.hold (foldReads (.jump (.var callee ty) args)) }
      else
        let staged := walkArgs names args
        if callee = "self" ∧ allPure args then
          { staged with ends := true }
        else
          let isPid := !ctx.declaredRt callee && staged.names.calleeType callee ty = "pid" &&
            callee ∈ staged.names.bound
          { staged with
            ends := callee = "self" && !ctx.declaredRt callee && !isPid
            clean := staged.clean && (!isPid || staged.names.hold [callee]) }
  | .when cond branches =>
      let disc := walkExpr names cond
      let arms := walkArms disc.names branches
      ⟨arms.names, false, disc.clean && arms.clean, disc.named && arms.named⟩
  | .wait handlers filter =>
      let bodies := walkHandlers names (names.register handlers) handlers
      let behind := names.leave bodies.names
      { names := behind
        ends := true
        clean := bodies.clean && filter.all fun pid => behind.hold (foldReads pid)
        named := bodies.named && handlers.all fun handler =>
          patSlots handler.1 ≤ registeredNames handlers }
  | .tuple elems =>
      { Walk.start names with clean := elems.all fun elem => names.hold (foldReads elem) }
  | .index receiver index =>
      if isPure (.index receiver index) then
        { Walk.start names with clean := names.hold (foldReads (.index receiver index)) }
      else
        let buf := walkExpr names receiver
        let offset := walkExpr buf.names index
        ⟨offset.names, false, buf.clean && offset.clean, buf.named && offset.named⟩
  | expr => { Walk.start names with clean := names.hold (foldReads expr) }

def walkArgs (names : Names) : List Expr → Walk
  | [] => .start names
  | arg :: args =>
      let value := walkExpr names arg
      let rest := walkArgs value.names args
      ⟨rest.names, false, value.clean && rest.clean, value.named && rest.named⟩

def walkSeq (names : Names) : List Expr → Walk
  | [] => .start names
  | stmt :: body =>
      let first := walkExpr names stmt
      if first.ends then
        first
      else
        let rest := walkSeq first.names body
        ⟨rest.names, rest.ends, first.clean && rest.clean, first.named && rest.named⟩

def walkArms (names : Names) : List (Expr × List Expr) → Walk
  | [] => .start names
  | (_, body) :: branches =>
      let arm := walkSeq names body
      let rest := walkArms (names.leave arm.names) branches
      ⟨rest.names, false, arm.clean && rest.clean, arm.named && rest.named⟩

/-- The bodies of a `wait` that starts where the first names are bound. -/
def walkHandlers (start names : Names) : List (List Pattern × List Expr) → Walk
  | [] => .start names
  | (patterns, body) :: handlers =>
      let first := walkSeq (names.enter start patterns) body
      let rest := walkHandlers start (names.leave first.names) handlers
      ⟨rest.names, false, first.clean && rest.clean, first.named && rest.named⟩
end

end Walk

end LakeNative.Compiler
