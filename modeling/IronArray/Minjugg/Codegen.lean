import IronArray.Minjugg.Llvm

/-!
# The compiler of expressions

`minjugg.c`: a function for an expression over named operands. It takes the pointers to the operands
and to the output from the parameters, and in a loop it loads an element of every operand, computes
the expression and stores the result. A tree of `jug_te_compile` is translated to instructions node by
node. The names of the functions are keys of `_jug_function_map`.
-/

namespace IronArray

open Ssa Llvm

abbrev Generator := Gen Op Datum

/-- `LLVMValueRef`. -/
abbrev LlvmValue := Value Datum

/-! ## Functions -/

/-- `_jug_fun_type_t`. -/
structure FunType where
  name : String
  requireDecl : Bool
  nyi : Bool
  arity : Nat
  noDeclRefF32 : Option Op
  noDeclRefF64 : Option Op
  declNameF32 : String
  declNameF64 : String
  uintRef : Option Op
  sintRef : Option Op
  declNameSintPre : String
  declNameUintPre : String

namespace FunType

/-- An entry that builds an instruction. -/
def instruction (name : String) (arity : Nat) (real uint sint : Op) : FunType :=
  ⟨name, false, false, arity, real, real, "", "", uint, sint, "", ""⟩

/-- An entry that calls a function of floating-point numbers. -/
def function (name : String) (arity : Nat) (f32 f64 : String) : FunType :=
  ⟨name, true, false, arity, none, none, f32, f64, none, none, "", ""⟩

end FunType

/-- `_jug_function_map`. -/
def functionMap : List FunType :=
  [.instruction "EXPR_TYPE_ADD" 2 .fAdd .add .add,
    .instruction "EXPR_TYPE_SUB" 2 .fSub .sub .sub,
    .instruction "EXPR_TYPE_MUL" 2 .fMul .mul .mul,
    .instruction "EXPR_TYPE_DIVIDE" 2 .fDiv .uDiv .sDiv,
    .instruction "EXPR_TYPE_NEGATE" 1 .fNeg .neg .neg,
    ⟨"EXPR_TYPE_COMMA", true, true, 1, none, none, "", "", none, none, "", ""⟩,
    ⟨"EXPR_TYPE_ABS", true, false, 1, none, none, "llvm.fabs.f32", "llvm.fabs.f64", none, none,
      "llvm.abs.", "llvm.abs."⟩,
    .function "EXPR_TYPE_ACOS" 1 "acosf" "acos",
    .function "EXPR_TYPE_ASIN" 1 "asinf" "asin",
    .function "EXPR_TYPE_ATAN" 1 "atanf" "atan",
    .function "EXPR_TYPE_ATAN2" 2 "atan2f" "atan2",
    .function "EXPR_TYPE_CEIL" 1 "llvm.ceil.f32" "llvm.ceil.f64",
    .function "EXPR_TYPE_COS" 1 "llvm.cos.f32" "llvm.cos.f64",
    .function "EXPR_TYPE_COSH" 1 "coshf" "cosh",
    .function "EXPR_TYPE_EXP" 1 "llvm.exp.f32" "llvm.exp.f64",
    .function "EXPR_TYPE_FLOOR" 1 "llvm.floor.f32" "llvm.floor.f64",
    .function "EXPR_TYPE_LOG" 1 "llvm.log.f32" "llvm.log.f64",
    .function "EXPR_TYPE_LOG10" 1 "llvm.log10.f32" "llvm.log10.f64",
    .function "EXPR_TYPE_POW" 2 "llvm.pow.f32" "llvm.pow.f64",
    .function "EXPR_TYPE_SIN" 1 "llvm.sin.f32" "llvm.sin.f64",
    .function "EXPR_TYPE_SINH" 1 "sinhf" "sinh",
    .function "EXPR_TYPE_SQRT" 1 "llvm.sqrt.f32" "llvm.sqrt.f64",
    .function "EXPR_TYPE_TAN" 1 "tanf" "tan",
    .function "EXPR_TYPE_TANH" 1 "tanhf" "tanh",
    .function "EXPR_TYPE_FMOD" 2 "fmodf" "fmod",
    ⟨"EXPR_TYPE_MIN", true, false, 2, none, none, "fminf", "fmin", none, none, "llvm.smin.",
      "llvm.umin."⟩,
    ⟨"EXPR_TYPE_MAX", true, false, 2, none, none, "fmaxf", "fmax", none, none, "llvm.smax.",
      "llvm.umax."⟩]

/-- `te_function_map_str`. -/
def teFunctionMapStr : ExprType → String
  | .add => "EXPR_TYPE_ADD"
  | .sub => "EXPR_TYPE_SUB"
  | .mul => "EXPR_TYPE_MUL"
  | .divide => "EXPR_TYPE_DIVIDE"
  | .negate => "EXPR_TYPE_NEGATE"
  | .comma => "EXPR_TYPE_COMMA"
  | .abs => "EXPR_TYPE_ABS"
  | .acos => "EXPR_TYPE_ACOS"
  | .asin => "EXPR_TYPE_ASIN"
  | .atan => "EXPR_TYPE_ATAN"
  | .atan2 => "EXPR_TYPE_ATAN2"
  | .ceil => "EXPR_TYPE_CEIL"
  | .cos => "EXPR_TYPE_COS"
  | .cosh => "EXPR_TYPE_COSH"
  | .exp => "EXPR_TYPE_EXP"
  | .floor => "EXPR_TYPE_FLOOR"
  | .log => "EXPR_TYPE_LOG"
  | .log10 => "EXPR_TYPE_LOG10"
  | .pow => "EXPR_TYPE_POW"
  | .sin => "EXPR_TYPE_SIN"
  | .sinh => "EXPR_TYPE_SINH"
  | .sqrt => "EXPR_TYPE_SQRT"
  | .tan => "EXPR_TYPE_TAN"
  | .tanh => "EXPR_TYPE_TANH"
  | .fmod => "EXPR_TYPE_FMOD"
  | .min => "EXPR_TYPE_MIN"
  | .max => "EXPR_TYPE_MAX"
  | .custom => "EXPR_TYPE_CUSTOM"

namespace FunType

/-- The name of the function that is declared for a type. -/
def declName (f : FunType) : Dtype → Option String
  | .float => some f.declNameF32
  | .double => some f.declNameF64
  | .int8 => some (f.declNameSintPre ++ "i8")
  | .int16 => some (f.declNameSintPre ++ "i16")
  | .int32 => some (f.declNameSintPre ++ "i32")
  | .int64 => some (f.declNameSintPre ++ "i64")
  | .uint8 => some (f.declNameUintPre ++ "u8")
  | .uint16 => some (f.declNameUintPre ++ "u16")
  | .uint32 => some (f.declNameUintPre ++ "u32")
  | .uint64 => some (f.declNameUintPre ++ "u64")
  | .bool => none

/-- The instruction that is built for a type. -/
def funRef (f : FunType) : Dtype → Option Op
  | .float => f.noDeclRefF32
  | .double => f.noDeclRefF64
  | .int8 | .int16 | .int32 | .int64 => f.sintRef
  | .uint8 | .uint16 | .uint32 | .uint64 => f.uintRef
  | .bool => none

end FunType

section

variable (A : Arithmetic) (d : Dtype)

/-- `_jug_build_fun_call`. What fails an assertion is undefined. -/
def jugBuildFunCall (name : String) (args : List LlvmValue) : Generator LlvmValue := do
  let f ← .ofOption (functionMap.find? fun f => f.name = name)
  if f.nyi ∨ args.length ≠ f.arity then .fail
  else if f.requireDecl then do
    let funName ← .ofOption (f.declName d)
    -- the intrinsic for integers takes a second argument
    if name = "EXPR_TYPE_ABS" ∧ ¬ d.isFloating then
      .emit (.call funName) (args ++ [.const (.i1 false)])
    else .emit (.call funName) args
  else do
    let funRef ← .ofOption (f.funRef d)
    .emit funRef args

/-- `TE_FUN`: the entry of `fun_map_te` is a proxy for the arity in the table, and it is called with
the parameters of the node. -/
def teFun (f : ExprType) (args : List LlvmValue) : Generator LlvmValue := do
  let proxy ← .ofOption functionMap[f.ctorIdx]?
  if args.length ≠ proxy.arity then .fail
  else jugBuildFunCall d (teFunctionMapStr f) args

/-! ## Expressions -/

/-- `(int8_t) n->value` and the like. Outside the range of the type the conversion is undefined. -/
def Dtype.truncate (d : Dtype) : FP → Option Int
  | .fin q =>
    let z := if 0 ≤ q then q.floor else q.ceil
    if d.wrap z = z then some z else none
  | _ => none

/-- The constant for a number. -/
def constant (x : FP) : Option Num :=
  if d.isFloating then some (.fp (A.constant d x)) else (d.truncate x).map .int

/-- The last value that was set for a key. -/
def hashtableGet {α : Type} (table : List (String × α)) (key : String) : Option α :=
  table.reverse.lookup key

mutual

/-- `_jug_expr_compile_expression`. -/
def compileExpression (params : List (String × LlvmValue)) : TeExpr → Generator LlvmValue
  | .teNone => .fail
  | .teConstant value => .ofOption ((constant A d value).map fun x => .const (.num x))
  | .teVariable bound => .ofOption (hashtableGet params bound)
  | .teFunction f ps => do
    let args ← compileParameters params ps
    teFun d f args
  | .teCustom udf ps =>
    -- the loop goes over the arguments of the function, not over the parameters of the node
    if ps.length = udf.numArgs then do
      let funPtr ← .emit .intToPtr [.const (.i64 udf.functionPtr)]
      let args ← compileParameters params ps
      .emit .callPtr (funPtr :: args)
    else .fail

/-- The parameters of a node. -/
def compileParameters (params : List (String × LlvmValue)) : List TeExpr → Generator (List LlvmValue)
  | [] => pure []
  | t :: ts => do
    let arg ← compileExpression params t
    let args ← compileParameters params ts
    pure (arg :: args)

end

/-! ## The function -/

/-- A field of the parameters. -/
def paramField (i : Nat) : Generator LlvmValue := do
  let ptr ← .emit (.structGep i) [.const (.ptr .params)]
  .emit .load [ptr]

/-- `LLVMBuildExtractValue` of an entry of the inputs. The type of the parameters has room for
`IARRAY_EXPR_OPERANDS_MAX` of them, and behind these there is nothing that LLVM could build. -/
def extractInput (inputs : LlvmValue) (i : Nat) : Generator LlvmValue :=
  if i < exprOperandsMax then .emit (.extractValue i) [inputs] else .fail

/-- A stack variable for an operand. -/
def localInput (inputs : LlvmValue) (i : Nat) : Generator LlvmValue := do
  let localInput ← .emit .alloca []
  let inAddr ← extractInput inputs i
  let castIn ← .emit .bitCast [inAddr]
  let _ ← .emit .store [castIn, localInput]
  pure localInput

/-- The section "stack_vars". -/
def stackVars (varLen : Nat) : Generator (LlvmValue × List LlvmValue) := do
  let localOutput ← .emit .alloca []
  let _ ← .emit (.structGep 0) [.const (.ptr .params)]
  let inputs ← paramField 1
  let localInputs ← .each (localInput inputs) (List.range varLen)
  let out ← paramField 4
  let outCast ← .emit .bitCast [out]
  let _ ← .emit .store [outCast, localOutput]
  pure (localOutput, localInputs)

/-- The section "loop_len". -/
def loopLen : Generator LlvmValue := do
  let outSize ← paramField 5
  let outTypesize ← paramField 6
  .emit .exactSDiv [outSize, outTypesize]

/-- The section "entry". -/
def loopEntry : Generator LlvmValue := do
  let indexAddr ← .emit .alloca []
  let _ ← .emit .store [.const (.i32 0), indexAddr]
  pure indexAddr

/-- The section "condition". -/
def loopCondition (indexAddr len : LlvmValue) : Generator LlvmValue := do
  let index ← .emit .load [indexAddr]
  .emit .icmpSlt [index, len]

/-- The element of an operand. -/
def loadInput (index : LlvmValue) (x : String × LlvmValue) : Generator (String × LlvmValue) := do
  let stackVar ← .emit .load [x.2]
  let addr ← .emit .gep [stackVar, index]
  let val ← .emit .load [addr]
  pure (x.1, val)

/-- The section "body". -/
def loopBody (localOutput : LlvmValue) (localInputs : List LlvmValue) (indexAddr : LlvmValue)
    (vars : List String) (expression : TeExpr) : Generator Unit := do
  let index ← .emit .load [indexAddr]
  let params ← .each (loadInput index) (vars.zip localInputs)
  let result ← compileExpression A d params expression
  let localOutRef ← .emit .load [localOutput]
  let outAddr ← .emit .gep [localOutRef, index]
  let _ ← .emit .store [result, outAddr]
  pure ()

/-- The section "increment". -/
def loopIncrement (indexAddr : LlvmValue) : Generator Unit := do
  let index ← .emit .load [indexAddr]
  let indexpp ← .emit .add [index, .const (.i32 1)]
  let _ ← .emit .store [indexpp, indexAddr]
  pure ()

/-- `_jug_expr_compile_function`: the seven sections, each with the register of its first
instruction behind those of the section before. -/
def compileFunction (expression : TeExpr) (vars : List String) : Option (List (Block Op Datum)) :=
  if d = .bool then none
  else do
    let ((localOutput, localInputs), stackVars) ← stackVars vars.length 0
    let n := stackVars.length
    let (len, loopLen) ← loopLen n
    let n := n + loopLen.length
    let (indexAddr, entry) ← loopEntry n
    let n := n + entry.length
    let (cond, condition) ← loopCondition indexAddr len n
    let n := n + condition.length
    let ((), body) ← loopBody A d localOutput localInputs indexAddr vars expression n
    let n := n + body.length
    let ((), increment) ← loopIncrement indexAddr n
    pure [⟨stackVars, .br 1⟩, ⟨loopLen, .br 2⟩, ⟨entry, .br 3⟩, ⟨condition, .condBr cond 4 6⟩,
      ⟨body, .br 5⟩, ⟨increment, .br 3⟩, ⟨[], .ret (.const (.i32 0))⟩]

end

/-! ## The execution engine -/

/-- Every function that the code calls is there. -/
def Resolved (d : Dtype) (code : List (Block Op Datum)) : Prop :=
  ∀ block ∈ code, ∀ i ∈ block.instrs, ∀ name, i.op = .call name →
    ∃ f, librarySymbol name = some (d, f)

/-- The state when a compiled function is called. -/
def callState (out : Nat → Cell) : State Datum Memory := ⟨fun _ => none, ⟨[], out⟩⟩

/-- `_jug_prepare_module` and `LLVMGetFunctionAddress`: the code is verified, optimised and linked. -/
abbrev Engine := Dtype → List (Block Op Datum) → Option EvalFn

/-- An engine links the code that calls what is there and no other, and what it makes of code does
what the instructions say. -/
structure Engine.Lawful (A : Arithmetic) (m : Machine) (engine : Engine) : Prop where
  links : ∀ d code, (engine d code).isSome ↔ Resolved d code
  runs : ∀ d code f p out s, engine d code = some f →
    Returns (processor A m d p) code 0 (callState out) (.i32 0, s) → f p out = .ok s.mem.out

open Classical in
/-- The engine that does what the instructions say. -/
noncomputable def referenceEngine (A : Arithmetic) (m : Machine) : Engine := fun d code =>
  if Resolved d code then
    some fun p out =>
      if h : ∃ s, Returns (processor A m d p) code 0 (callState out) (.i32 0, s) then
        .ok h.choose.mem.out
      else .error 1
  else none

theorem referenceEngine_lawful (A : Arithmetic) (m : Machine) :
    (referenceEngine A m).Lawful A m := by
  constructor
  · intro d code
    unfold referenceEngine
    split
    next h => exact iff_of_true rfl h
    next h => exact iff_of_false Bool.false_ne_true h
  · intro d code f p out s hFunc hReturns
    unfold referenceEngine at hFunc
    split at hFunc
    · cases hFunc
      have hSome : ∃ s, Returns (processor A m d p) code 0 (callState out) (.i32 0, s) :=
        ⟨s, hReturns⟩
      have hSame : hSome.choose = s :=
        congrArg Prod.snd (Returns.unique hSome.choose_spec hReturns)
      dsimp only
      rw [dif_pos hSome, hSame]
    · cases hFunc

/-- `jug_expression_compile`. -/
def jugExpressionCompile (engine : Engine) (A : Arithmetic) (toDouble : ℚ → FP)
    (registry : UdfRegistry) (d : Dtype) (expr : String) (vars : List String) : Result EvalFn :=
  match Lexicon.jugTeCompile ⟨toDouble, vars, registry⟩ expr.toList with
  | .error _ => crash .outOfBounds
  | .ok (.error _) => inaError .invalidArgument
  | .ok (.ok expression) =>
    match compileFunction A d expression vars with
    | none => crash .nullPointer
    | some code =>
      match engine d code with
      | none => inaError .failed
      | some func => .ok func

end IronArray
