import LakeNative.Compiler.GuardSelect
import LakeNative.Compiler.PureExpr

/-! # The arms of a `when`

How a `when` finds the arm of a discriminant: by a switch on numbers, by a perfect hash
of strings, or, where every arm is a constant, by a table without arms.
-/

namespace LakeNative.Compiler

open LakeNative.Runtime LakeNative.PerfectHash

/-! ## Tables of constants -/

def constFoldI64 (literals : Literals) : Expr → Option Word
  | .num text _ => literals.parseInt text
  | .bool value => some (if value then 1 else 0)
  | .neg inner => (constFoldI64 literals inner).map Neg.neg
  | .binary op left right => do
      let left ← constFoldI64 literals left
      let right ← constFoldI64 literals right
      match op with
      | .add => some (left + right)
      | .sub => some (left - right)
      | .mul => some (left * right)
      | .div => if right = 0 then none else some (left.sdiv right)
      | .bAnd => some (left &&& right)
      | .bOr => some (left ||| right)
      | .bXor => some (left ^^^ right)
      | .shl => if right.toNat < 64 then some (left <<< right.toNat) else none
      | .shr => if right.toNat < 64 then some (left >>> right.toNat) else none
      | _ => none
  | _ => none

/-- The key and the constant of an arm, of which there are `count`. -/
def kTableEntry (literals : Literals) (count : Nat) : Expr × List Expr → Option (Nat × Word)
  | (.num text _, [body]) => do
      let key ← literals.parseInt text
      if 0 ≤ key.toInt ∧ key.toInt < count then
        (constFoldI64 literals body).map fun value => (key.toNat, value)
      else
        none
  | _ => none

/-- The constants in the order of their keys, which are to be exactly those below the
number of arms. -/
def tryBuildKTable (literals : Literals) (branches : List (Expr × List Expr)) :
    Option (List Word) :=
  if branches.length < 2 then
    none
  else do
    let entries ← branches.mapM (kTableEntry literals branches.length)
    if (entries.map Prod.fst).Nodup then
      (List.range branches.length).mapM fun key => entries.lookup key
    else
      none

/-! ## Choosing an arm -/

/-- The pattern `_` of a default arm. -/
def isWildcardArm : Expr → Bool
  | .var "_" _ => true
  | _ => false

inductive WhenBranchType where
  | simple
  | ptr

def getTy : Expr → Option WhenBranchType
  | .bool _ | .num _ _ | .atom _ => some .simple
  | .string _ _ => some .ptr
  | _ => none

def literalValue (literals : Literals) : Expr → Option Nat
  | .bool value => some (if value then 1 else 0)
  | .num text _ => (literals.parseInt text).map BitVec.toNat
  | .atom name => some (literals.atomId name).toNat
  | _ => none

def hashLit : Expr → Option UInt64
  | .string text _ => some (fxhash text.toUTF8.data.toList)
  | _ => none

/-- The indices of the `_` arms. -/
def wildcardArms (keys : List Expr) : List Nat :=
  (keys.zipIdx.filter fun entry => isWildcardArm entry.1).map Prod.snd

/-- The other arms' keys as `value` reads them, with the arms' indices. -/
def armEntries {Key : Type} (value : Expr → Option Key) (keys : List Expr) :
    Option (List (Key × Nat)) :=
  (keys.zipIdx.filter fun entry => !isWildcardArm entry.1).mapM fun entry =>
    (value entry.1).map fun key => (key, entry.2)

/-- The arm that the check block goes to, if any: the arm of the discriminant's key, else
the `_` arm. The compiler stops at a key that it cannot read or that is there twice. -/
def selectArm (literals : Literals) (switch : Switch) (keys : List Expr) :
    Option (Memory → Word → Option Nat) := do
  let wildcard := (wildcardArms keys).head?
  let typedArm ← keys.find? fun key => !isWildcardArm key
  match ← getTy typedArm with
  | .simple =>
      let entries ← armEntries (literalValue literals) keys
      let table ← switch.emit entries
      some fun _ disc => (table disc).or wildcard
  | .ptr =>
      let entries ← armEntries hashLit keys
      let mphf ← MphfBuilder.build (entries.map Prod.fst)
      let index := fun key => (mphf.lookup key).toNat
      if (entries.map fun entry => index entry.1).Nodup ∧
          ∀ entry ∈ entries, index entry.1 < entries.length then
        some fun memory disc =>
          ((probe index Prod.fst entries (fxhash (memory disc))).map Prod.snd).or wildcard
      else
        none

end LakeNative.Compiler
