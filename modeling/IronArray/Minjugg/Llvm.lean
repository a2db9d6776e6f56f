import IronArray.Expression.Code
import IronArray.Language.Ssa
import IronArray.Minjugg.Parser

/-!
# Instructions

The instructions that the compiler of expressions builds, and what LLVM says that they do. A compiled
function gets a pointer to `iarray_eval_pparams_t`; it has stack variables, reads the operands and
writes the output. Floating-point arithmetic, the functions of the mathematical library and the
registered functions are parameters.
-/

namespace IronArray

open Ssa

/-- What compiled expressions rely on: how a constant is rounded to a type, the floating-point
operations and functions of a type, and the code of the registered functions. -/
structure Arithmetic where
  constant : Dtype → FP → FP
  real : Dtype → ExprType → List FP → FP
  udf : Nat → List Num → Option Num

/-! ## Words and memory -/

/-- What a pointer points to: the parameters, a field of them, a stack variable, an element of an
operand or of the output, or code. -/
inductive Address
  | params
  | field (i : Nat)
  | slot (i : Nat)
  | input (p : Pointer) (index : Int)
  | output (index : Int)
  | code (functionPtr : Nat)

/-- What a register holds. A number is of the type of the expression. -/
inductive Datum
  | void
  | i1 (b : Bool)
  | i32 (z : Int)
  | i64 (z : Int)
  | num (x : Num)
  | ptr (a : Address)
  | array (ps : List Pointer)

/-- What a compiled function may change: its stack variables and the output. -/
structure Memory where
  slots : List (Option Datum)
  out : Nat → Cell

inductive Op
  | alloca | structGep (field : Nat) | load | store | extractValue (i : Nat) | bitCast | gep
  | exactSDiv | icmpSlt
  | fAdd | fSub | fMul | fDiv | fNeg
  | add | sub | mul | uDiv | sDiv | neg
  | call (name : String)
  | intToPtr | callPtr
deriving DecidableEq

/-! ## Functions that code may call -/

/-- The functions of the mathematical library and the intrinsics of the two floating-point types. -/
def realSymbols : List (String × String × ExprType) :=
  [("llvm.fabs.f32", "llvm.fabs.f64", .abs), ("acosf", "acos", .acos), ("asinf", "asin", .asin),
    ("atanf", "atan", .atan), ("atan2f", "atan2", .atan2),
    ("llvm.ceil.f32", "llvm.ceil.f64", .ceil), ("llvm.cos.f32", "llvm.cos.f64", .cos),
    ("coshf", "cosh", .cosh), ("llvm.exp.f32", "llvm.exp.f64", .exp),
    ("llvm.floor.f32", "llvm.floor.f64", .floor), ("llvm.log.f32", "llvm.log.f64", .log),
    ("llvm.log10.f32", "llvm.log10.f64", .log10), ("llvm.pow.f32", "llvm.pow.f64", .pow),
    ("llvm.sin.f32", "llvm.sin.f64", .sin), ("sinhf", "sinh", .sinh),
    ("llvm.sqrt.f32", "llvm.sqrt.f64", .sqrt), ("tanf", "tan", .tan), ("tanhf", "tanh", .tanh),
    ("fmodf", "fmod", .fmod), ("fminf", "fmin", .min), ("fmaxf", "fmax", .max)]

/-- The intrinsics on integers of a width. -/
def intSymbols (suffix : String) (signed unsigned : Dtype) : List (String × Dtype × ExprType) :=
  [("llvm.abs." ++ suffix, signed, .abs), ("llvm.smin." ++ suffix, signed, .min),
    ("llvm.smax." ++ suffix, signed, .max), ("llvm.umin." ++ suffix, unsigned, .min),
    ("llvm.umax." ++ suffix, unsigned, .max)]

/-- The functions that a name can be resolved to. -/
def symbols : List (String × Dtype × ExprType) :=
  realSymbols.map (fun s => (s.1, .float, s.2.2)) ++
    realSymbols.map (fun s => (s.2.1, .double, s.2.2)) ++
    intSymbols "i8" .int8 .uint8 ++ intSymbols "i16" .int16 .uint16 ++
    intSymbols "i32" .int32 .uint32 ++ intSymbols "i64" .int64 .uint64

def librarySymbol (name : String) : Option (Dtype × ExprType) := symbols.lookup name

/-! ## Numbers -/

/-- Floating-point arguments. -/
def realArgs : List Datum → Option (List FP)
  | [] => some []
  | .num (.fp x) :: ws => (realArgs ws).map (x :: ·)
  | _ => none

/-- Arguments of the type of the expression. -/
def numArgs : List Datum → Option (List Num)
  | [] => some []
  | .num x :: ws => (numArgs ws).map (x :: ·)
  | _ => none

namespace Dtype

/-- The quotient of signed integers. It may not fit into the type. -/
def sDiv (d : Dtype) (a b : Int) : Option Int :=
  if b = 0 ∨ d.wrap (a.tdiv b) ≠ a.tdiv b then none else some (a.tdiv b)

/-- The quotient of unsigned integers. -/
def uDiv (a b : Int) : Option Int := if b = 0 then none else some (a / b)

/-- The intrinsics on integers. The second argument of `llvm.abs` says that there is a value at the
smallest integer. -/
def intCall (d : Dtype) : ExprType → List Datum → Option Int
  | .abs, [.num (.int a), .i1 false] => some (d.wrap |a|)
  | .min, [.num (.int a), .num (.int b)] => some (min a b)
  | .max, [.num (.int a), .num (.int b)] => some (max a b)
  | _, _ => none

end Dtype

namespace Llvm

section

variable (A : Arithmetic) (m : Machine) (d : Dtype) (p : EvalPparams)

def real (f : ExprType) (ws : List Datum) : Option Datum :=
  (realArgs ws).map fun xs => .num (.fp (A.real d f xs))

def int (z : Int) : Option Datum := some (.num (.int z))

/-- An element of the type of the expression behind a pointer. -/
def loadElement (q : Pointer) (k : Nat) : Num :=
  (loadAt m q.dtype q.mem (q.offset + k * d.size) d).num d

def load (mem : Memory) : Address → Option Datum
  | .field 1 => some (.array p.inputs)
  | .field 4 => some (.ptr (.output 0))
  | .field 5 => some (.i32 (Dtype.int32.wrap p.outSize))
  | .field 6 => some (.i32 (Dtype.int32.wrap p.outTypesize))
  | .slot i => mem.slots[i]?.join
  | .input q k => if 0 ≤ k then some (.num (loadElement m d q k.toNat)) else none
  | .output k => if 0 ≤ k then some (.num ((mem.out k.toNat).num d)) else none
  | _ => none

def store (mem : Memory) : Datum → Address → Option Memory
  | w, .slot i =>
    if i < mem.slots.length then some { mem with slots := mem.slots.set i (some w) } else none
  | .num x, .output k =>
    if 0 ≤ k then some { mem with out := Function.update mem.out k.toNat (x.cell d) } else none
  | _, _ => none

/-- A pointer to elements, moved by a number of elements. -/
def gep : Address → Int → Option Address
  | .input q k, i => some (.input q (k + i))
  | .output k, i => some (.output (k + i))
  | _, _ => none

/-- A call of a function of a library. -/
def call (name : String) (ws : List Datum) : Option Datum :=
  match librarySymbol name with
  | some (d', f) =>
    if d' ≠ d then none
    else if d.isFloating then real A d f ws
    else (d.intCall f ws).bind int
  | none => none

/-- The operations without an effect on memory. -/
def eval : Op → List Datum → Option Datum
  | .structGep i, [.ptr .params] => some (.ptr (.field i))
  | .extractValue i, [.array ps] => ps[i]?.map fun q => .ptr (.input q 0)
  | .bitCast, [w] => some w
  | .gep, [.ptr a, .i32 i] => (gep a i).map .ptr
  | .exactSDiv, [.i32 a, .i32 b] =>
    if a % b = 0 then (Dtype.int32.sDiv a b).map .i32 else none
  | .icmpSlt, [.i32 a, .i32 b] => some (.i1 (a < b))
  | .fAdd, [x, y] => real A d .add [x, y]
  | .fSub, [x, y] => real A d .sub [x, y]
  | .fMul, [x, y] => real A d .mul [x, y]
  | .fDiv, [x, y] => real A d .divide [x, y]
  | .fNeg, [x] => real A d .negate [x]
  | .add, [.i32 a, .i32 b] => some (.i32 (Dtype.int32.wrap (a + b)))
  | .add, [.num (.int a), .num (.int b)] => int (d.wrap (a + b))
  | .sub, [.num (.int a), .num (.int b)] => int (d.wrap (a - b))
  | .mul, [.num (.int a), .num (.int b)] => int (d.wrap (a * b))
  | .uDiv, [.num (.int a), .num (.int b)] => (Dtype.uDiv a b).bind int
  | .sDiv, [.num (.int a), .num (.int b)] => (d.sDiv a b).bind int
  | .neg, [.num (.int a)] => int (d.wrap (-a))
  | .call name, ws => call A d name ws
  | .intToPtr, [.i64 z] => some (.ptr (.code z.toNat))
  | .callPtr, .ptr (.code f) :: ws => (numArgs ws).bind fun xs => (A.udf f xs).map .num
  | _, _ => none

def exec : Op → List Datum → Memory → Option (Datum × Memory)
  | .alloca, [], mem =>
    some (.ptr (.slot mem.slots.length), { mem with slots := mem.slots ++ [none] })
  | .load, [.ptr a], mem => (load m d p mem a).map fun w => (w, mem)
  | .store, [w, .ptr a], mem => (store d mem w a).map fun mem => (.void, mem)
  | op, ws, mem => (eval A d op ws).map fun w => (w, mem)

/-- The processor of a call of a compiled function. -/
def processor : Processor Op Datum Memory where
  exec := exec A m d p
  truth
    | .i1 b => some b
    | _ => none

end

end Llvm

end IronArray
