import IronArray.Minjugg.Codegen

/-!
# The value of an expression

What a tree means over values of its operands, in the type of the expression. Integers wrap around;
the quotient by zero and the quotient that does not fit have no value, and most functions have none on
integers. The instructions that the compiler emits for a tree compute this value, and get stuck if
there is none: `compileExpression_yields`.
-/

namespace IronArray

open Ssa Llvm

/-! ## Functions -/

namespace Num

def fp? : Num → Option FP
  | fp x => some x
  | int _ => none

def int? : Num → Option Int
  | int z => some z
  | fp _ => none

end Num

namespace ExprType

/-- The number of arguments of a floating-point operation or function. -/
def realArity : ExprType → Option Nat
  | add | sub | mul | divide | atan2 | pow | fmod | min | max => some 2
  | comma | custom => none
  | _ => some 1

/-- The operations and functions on integers of a type. -/
def int (d : Dtype) : ExprType → List Int → Option Int
  | add, [a, b] => some (d.wrap (a + b))
  | sub, [a, b] => some (d.wrap (a - b))
  | mul, [a, b] => some (d.wrap (a * b))
  | divide, [a, b] => if d.isSigned then d.sDiv a b else Dtype.uDiv a b
  | negate, [a] => some (d.wrap (-a))
  | abs, [a] => if d.isSigned then some (d.wrap |a|) else none
  | min, [a, b] => if d.isSigned then some (Min.min a b) else none
  | max, [a, b] => if d.isSigned then some (Max.max a b) else none
  | _, _ => none

/-- The value of a function for arguments of a type. -/
def apply (A : Arithmetic) (d : Dtype) (f : ExprType) (xs : List Num) : Option Num :=
  if d.isFloating then
    if f.realArity = some xs.length then (xs.mapM Num.fp?).map fun ys => .fp (A.real d f ys)
    else none
  else (xs.mapM Num.int?).bind fun zs => (f.int d zs).map .int

/-- Functions that there are for signed integers, too. -/
def OnInts (f : ExprType) : Prop := f = .abs ∨ f = .min ∨ f = .max

instance (f : ExprType) : Decidable f.OnInts := inferInstanceAs (Decidable (_ ∨ _))

end ExprType

/-! ## Trees -/

namespace TeExpr

variable (A : Arithmetic) (d : Dtype) (ρ : String → Option Num)

mutual

/-- The value of a tree. -/
def eval : TeExpr → Option Num
  | teNone => none
  | teConstant value => constant A d value
  | teVariable bound => ρ bound
  | teFunction f ps => (evalAll ps).bind (f.apply A d)
  | teCustom udf ps =>
    if ps.length = udf.numArgs then (evalAll ps).bind (A.udf udf.functionPtr) else none

/-- The values of the parameters of a node. -/
def evalAll : List TeExpr → Option (List Num)
  | [] => some []
  | t :: ts => (eval t).bind fun x => (evalAll ts).map (x :: ·)

end

end TeExpr

/-! ## One function -/

section Function

variable {A : Arithmetic} {m : Machine} {d : Dtype} {p : EvalPparams} {n : Nat}
  {s : State Datum Memory} {f : ExprType} {args : List LlvmValue} {xs : List Num}

/-- The entry of a function is found under its name. -/
theorem functionMap_find (f : ExprType) :
    (functionMap.find? fun e => e.name = teFunctionMapStr f) = functionMap[f.ctorIdx]? := by
  cases f <;> rfl

theorem teFunctionMapStr_abs (f : ExprType) : teFunctionMapStr f = "EXPR_TYPE_ABS" ↔ f = .abs := by
  cases f <;> decide

theorem realArgs_num (xs : List Num) : realArgs (xs.map .num) = xs.mapM Num.fp? := by
  induction xs with
  | nil => rfl
  | cons x xs ih =>
    rw [List.mapM_cons]
    cases x with
    | int z => rfl
    | fp x =>
      show (realArgs (xs.map .num)).map (x :: ·) = _
      rw [ih]
      cases xs.mapM Num.fp? <;> rfl

theorem numArgs_num (xs : List Num) : numArgs (xs.map .num) = some xs := by
  induction xs with
  | nil => rfl
  | cons x xs ih =>
    show (numArgs (xs.map .num)).map (x :: ·) = _
    rw [ih]
    rfl

theorem bind_int (x : Option Int) : x.bind Llvm.int = (x.map Num.int).map Datum.num := by
  cases x <;> rfl

/-- Instructions of the table compute their function. -/
theorem eval_instruction {e : FunType} (hEntry : functionMap[f.ctorIdx]? = some e)
    (hDecl : e.requireDecl = false) (hArity : xs.length = e.arity) {op : Op}
    (hRef : e.funRef d = some op) :
    Llvm.eval A d op (xs.map .num) = (f.apply A d xs).map .num := by
  cases f
  case add =>
    cases hEntry
    obtain ⟨x, y, rfl⟩ := List.length_eq_two.mp hArity
    cases d <;> cases hRef <;> cases x <;> cases y <;> rfl
  case sub =>
    cases hEntry
    obtain ⟨x, y, rfl⟩ := List.length_eq_two.mp hArity
    cases d <;> cases hRef <;> cases x <;> cases y <;> rfl
  case mul =>
    cases hEntry
    obtain ⟨x, y, rfl⟩ := List.length_eq_two.mp hArity
    cases d <;> cases hRef <;> cases x <;> cases y <;> rfl
  case divide =>
    cases hEntry
    obtain ⟨x, y, rfl⟩ := List.length_eq_two.mp hArity
    cases d <;> cases hRef <;> cases x <;> cases y <;> first | rfl | exact bind_int _
  case negate =>
    cases hEntry
    obtain ⟨x, rfl⟩ := List.length_eq_one_iff.mp hArity
    cases d <;> cases hRef <;> cases x <;> rfl
  all_goals cases hEntry <;> cases hDecl

/-- The end of the name of a function on integers. -/
def intSuffix : Dtype → String
  | .int8 => "i8"
  | .int16 => "i16"
  | .int32 => "i32"
  | .int64 => "i64"
  | .uint8 => "u8"
  | .uint16 => "u16"
  | .uint32 => "u32"
  | _ => "u64"

theorem librarySymbol_intSuffix (d : Dtype) : librarySymbol (intSuffix d) = none := by
  cases d <;> decide

theorem declName_function {name : String} {arity : Nat} {f32 f64 : String} (hd : d ≠ .bool)
    (hReal : d.isFloating = false) :
    (FunType.function name arity f32 f64).declName d = some (intSuffix d) := by
  cases d with
  | bool => exact absurd rfl hd
  | float => cases hReal
  | double => cases hReal
  | _ => rfl

/-- An entry that calls a function. -/
structure Called (f : ExprType) (e : FunType) : Prop where
  entry : functionMap[f.ctorIdx]? = some e
  decl : e.requireDecl = true
  nyi : e.nyi = false

section Called

variable {e : FunType} {name : String}

theorem librarySymbol_real (h : Called f e) (hReal : d.isFloating = true)
    (hName : e.declName d = some name) : librarySymbol name = some (d, f) := by
  obtain ⟨hEntry, hDecl, hNyi⟩ := h
  cases f
  case custom => cases hEntry
  case comma =>
    cases hEntry
    cases hNyi
  case add | sub | mul | divide | negate =>
    cases hEntry
    cases hDecl
  all_goals
    cases hEntry
    cases d with
    | float =>
      cases hName
      decide
    | double =>
      cases hName
      decide
    | _ => cases hReal

theorem librarySymbol_ints (h : Called f e) (hInts : f.OnInts) (hReal : d.isFloating = false)
    (hName : e.declName d = some name) :
    librarySymbol name = if d.isSigned then some (d, f) else none := by
  obtain ⟨hEntry, -, -⟩ := h
  rcases hInts with rfl | rfl | rfl
  all_goals
    cases hEntry
    cases d with
    | float => cases hReal
    | double => cases hReal
    | bool => cases hName
    | _ =>
      cases hName
      decide

theorem librarySymbol_bare (h : Called f e) (hInts : ¬ f.OnInts) (hReal : d.isFloating = false)
    (hName : e.declName d = some name) : librarySymbol name = none := by
  obtain ⟨hEntry, hDecl, hNyi⟩ := h
  have hd : d ≠ .bool := by
    rintro rfl
    cases hName
  cases f
  case custom => cases hEntry
  case comma =>
    cases hEntry
    cases hNyi
  case add | sub | mul | divide | negate =>
    cases hEntry
    cases hDecl
  case abs | min | max => exact absurd (by decide) hInts
  all_goals
    cases hEntry
    rw [declName_function hd hReal] at hName
    cases hName
    exact librarySymbol_intSuffix d

/-- A function of the table takes the number of arguments that the table says. -/
theorem realArity_entry (hEntry : functionMap[f.ctorIdx]? = some e) (hNyi : e.nyi = false) :
    f.realArity = some e.arity := by
  cases f
  case custom => cases hEntry
  case comma =>
    cases hEntry
    cases hNyi
  all_goals
    cases hEntry
    rfl

/-- The second argument of an intrinsic for integers. -/
def extraArgs (d : Dtype) (f : ExprType) : List Datum :=
  if f = .abs ∧ ¬ d.isFloating then [.i1 false] else []

theorem apply_unsigned (hReal : d.isFloating = false) (hSigned : d.isSigned = false)
    (hInts : f.OnInts) : f.apply A d xs = none := by
  have hNone : ∀ zs, f.int d zs = none := by
    intro zs
    unfold ExprType.int
    split
    all_goals first
      | rfl
      | exact if_neg (by rw [hSigned]; decide)
      | exact absurd hInts (by decide)
  rw [ExprType.apply, if_neg (by rw [hReal]; decide)]
  cases xs.mapM Num.int? with
  | none => rfl
  | some zs => rw [Option.bind_some, hNone zs]; rfl

theorem apply_bare (h : Called f e) (hReal : d.isFloating = false) (hInts : ¬ f.OnInts) :
    f.apply A d xs = none := by
  obtain ⟨hEntry, hDecl, -⟩ := h
  have hNone : ∀ zs, f.int d zs = none := by
    intro zs
    unfold ExprType.int
    split
    case h_1 | h_2 | h_3 | h_4 | h_5 => 
      cases hEntry
      cases hDecl
    case h_6 | h_7 | h_8 => exact absurd (by decide) hInts
    case h_9 => rfl
  rw [ExprType.apply, if_neg (by rw [hReal]; decide)]
  cases xs.mapM Num.int? with
  | none => rfl
  | some zs => rw [Option.bind_some, hNone zs]; rfl

/-- Functions that are called compute their function. -/
theorem call_eq (h : Called f e) (hName : e.declName d = some name) (hArity : xs.length = e.arity) :
    Llvm.call A d name (xs.map .num ++ extraArgs d f) = (f.apply A d xs).map .num := by
  by_cases hReal : d.isFloating
  · have hNone : extraArgs d f = [] := if_neg fun hBoth => hBoth.2 hReal
    rw [Llvm.call, librarySymbol_real h hReal hName, hNone, List.append_nil]
    have hReals : f.realArity = some xs.length := by
      rw [realArity_entry h.entry h.nyi, hArity]
    simp only [ne_eq, not_true_eq_false, if_false, if_pos hReal, real, realArgs_num,
      ExprType.apply, if_pos hReals, Option.map_map]
    rfl
  · have hReal : d.isFloating = false := by simpa using hReal
    by_cases hInts : f.OnInts
    · by_cases hSigned : d.isSigned
      · have hSymbol := librarySymbol_ints h hInts hReal hName
        rw [if_pos hSigned] at hSymbol
        simp only [Llvm.call, hSymbol, ne_eq, not_true_eq_false, if_false, hReal, Bool.false_eq_true]
        rcases hInts with rfl | rfl | rfl
        · cases h.entry
          obtain ⟨x, rfl⟩ := List.length_eq_one_iff.mp hArity
          have hExtra : extraArgs d .abs = [.i1 false] := if_pos ⟨rfl, by simp [hReal]⟩
          rw [hExtra, ExprType.apply, if_neg (by simp [hReal])]
          cases x with
          | fp x => rfl
          | int z => simp [Num.int?, ExprType.int, hSigned, Dtype.intCall, Llvm.int]
        · cases h.entry
          obtain ⟨x, y, rfl⟩ := List.length_eq_two.mp hArity
          have hExtra : extraArgs d .min = [] := if_neg (by simp)
          rw [hExtra, ExprType.apply, if_neg (by simp [hReal])]
          cases x <;> cases y <;> simp [Num.int?, ExprType.int, hSigned, Dtype.intCall, Llvm.int]
        · cases h.entry
          obtain ⟨x, y, rfl⟩ := List.length_eq_two.mp hArity
          have hExtra : extraArgs d .max = [] := if_neg (by simp)
          rw [hExtra, ExprType.apply, if_neg (by simp [hReal])]
          cases x <;> cases y <;> simp [Num.int?, ExprType.int, hSigned, Dtype.intCall, Llvm.int]
      · have hSigned : d.isSigned = false := by simpa using hSigned
        rw [Llvm.call, librarySymbol_ints h hInts hReal hName, hSigned,
          apply_unsigned hReal hSigned hInts]
        rfl
    · rw [Llvm.call, librarySymbol_bare h hInts hReal hName, apply_bare h hReal hInts]
      rfl

end Called

/-- An operation without an effect on memory. -/
def Op.Pure (op : Op) : Prop := op ≠ .alloca ∧ op ≠ .load ∧ op ≠ .store

theorem exec_pure {op : Op} (h : op.Pure) (ws : List Datum) (mem : Memory) :
    exec A m d p op ws mem = (Llvm.eval A d op ws).map fun w => (w, mem) := by
  obtain ⟨hAlloca, hLoad, hStore⟩ := h
  cases op
  case alloca => exact absurd rfl hAlloca
  case load => exact absurd rfl hLoad
  case store => exact absurd rfl hStore
  all_goals rfl

theorem funRef_pure {e : FunType} (hEntry : functionMap[f.ctorIdx]? = some e) {op : Op}
    (hRef : e.funRef d = some op) : op.Pure := by
  cases f
  case add | sub | mul | divide | negate =>
    cases hEntry
    cases d <;> cases hRef <;> exact ⟨by decide, by decide, by decide⟩
  all_goals
    cases hEntry
    try cases d <;> cases hRef

/-- What a generated number is, with memory as before. -/
def Numbers (mem : Memory) (v : LlvmValue) (x : Num) (n : Nat) (s : State Datum Memory) : Prop :=
  Holds n s v (.num x) ∧ s.mem = mem

theorem emit_yields {op : Op} (hPure : op.Pure) {ws : List Datum} {x : Option Num}
    (hArgs : List.Forall₂ (Holds n s) args ws) (hEval : Llvm.eval A d op ws = x.map .num) :
    (Gen.emit op args : Generator LlvmValue).Yields (processor A m d p) n s x (Numbers s.mem) := by
  apply Gen.Yields.emit hArgs
  show exec A m d p op ws s.mem = _
  rw [exec_pure hPure, hEval, Option.map_map]
  rfl

/-- The instruction or the call that is built for a function computes it. -/
theorem teFun_yields (hArgs : List.Forall₂ (Holds n s) args (xs.map .num)) :
    (teFun d f args).Yields (processor A m d p) n s (f.apply A d xs) (Numbers s.mem) := by
  have hLength : args.length = xs.length := by simpa using hArgs.length_eq
  unfold teFun
  cases hEntry : functionMap[f.ctorIdx]? with
  | none =>
    rw [Gen.ofOption_none_bind]
    exact .fail
  | some e =>
    rw [Gen.ofOption_some_bind]
    split
    · exact .fail
    next hArity =>
      have hArity : args.length = e.arity := not_not.mp hArity
      rw [jugBuildFunCall, functionMap_find, hEntry, Gen.ofOption_some_bind]
      split
      · exact .fail
      next hNyi =>
        have hNyi : e.nyi = false := by
          cases hCase : e.nyi with
          | false => rfl
          | true => exact absurd (.inl hCase) hNyi
        split
        next hDecl =>
          cases hName : e.declName d with
          | none =>
            rw [Gen.ofOption_none_bind]
            exact .fail
          | some name =>
            rw [Gen.ofOption_some_bind]
            have hCall := call_eq (A := A) ⟨hEntry, hDecl, hNyi⟩ hName (hLength ▸ hArity)
            simp only [teFunctionMapStr_abs]
            split
            next hAbs =>
              rw [extraArgs, if_pos hAbs] at hCall
              exact emit_yields ⟨by simp, by simp, by simp⟩
                (List.rel_append hArgs (.cons (.const n s _) .nil)) hCall
            next hAbs =>
              rw [extraArgs, if_neg hAbs, List.append_nil] at hCall
              exact emit_yields ⟨by simp, by simp, by simp⟩ hArgs hCall
        next hDecl =>
          cases hRef : e.funRef d with
          | none =>
            rw [Gen.ofOption_none_bind]
            exact .fail
          | some op =>
            rw [Gen.ofOption_some_bind]
            exact emit_yields (funRef_pure hEntry hRef) hArgs
              (eval_instruction hEntry (by simpa using hDecl) (hLength ▸ hArity) hRef)

end Function

/-! ## The instructions for a tree -/

section Tree

variable {A : Arithmetic} {m : Machine} {d : Dtype} {p : EvalPparams}
  {params : List (String × LlvmValue)} {ρ : String → Option Num}

/-- The values of the operands lie below a register. -/
def Bound (params : List (String × LlvmValue)) (ρ : String → Option Num) (n : Nat)
    (s : State Datum Memory) : Prop :=
  ∀ name v, hashtableGet params name = some v → ∃ x, ρ name = some x ∧ Holds n s v (.num x)

theorem Bound.mono {n n' : Nat} {s s' : State Datum Memory} (h : Bound params ρ n s)
    (hSame : SameBelow n s s') (hLe : n ≤ n') : Bound params ρ n' s' := by
  intro name v hv
  obtain ⟨x, hx, hHolds⟩ := h name v hv
  exact ⟨x, hx, hHolds.mono hSame hLe⟩

mutual

/-- The instructions for a tree compute its value. -/
theorem compileExpression_yields (t : TeExpr) {n : Nat} {s : State Datum Memory}
    (h : Bound params ρ n s) :
    (compileExpression A d params t).Yields (processor A m d p) n s (t.eval A d ρ)
      (Numbers s.mem) := by
  cases t with
  | teNone => exact .fail
  | teConstant value =>
    rw [compileExpression, TeExpr.eval]
    cases constant A d value with
    | none => exact .fail
    | some x => exact .pure ⟨.const n s _, rfl⟩
  | teVariable bound =>
    rw [compileExpression, TeExpr.eval]
    cases hGet : hashtableGet params bound with
    | none => exact .fail
    | some v =>
      obtain ⟨x, hx, hHolds⟩ := h bound v hGet
      rw [hx]
      exact .pure ⟨hHolds, rfl⟩
  | teFunction f ps =>
    rw [compileExpression, TeExpr.eval]
    refine (compileParameters_yields ps h).bind fun args xs n' s' _ _ _ hArgs => ?_
    rw [← hArgs.2]
    exact teFun_yields hArgs.1
  | teCustom udf ps =>
    rw [compileExpression, TeExpr.eval]
    split
    next hLength =>
      have hPtr : (Gen.emit .intToPtr [.const (.i64 udf.functionPtr)] : Generator LlvmValue).Does
          (processor A m d p) n s fun v n' s' =>
            Holds n' s' v (.ptr (.code udf.functionPtr)) ∧ s'.mem = s.mem :=
        .emit (.cons (.const n s _) .nil) rfl
      refine hPtr.yields fun f n' s' hLe hSame hf => ?_
      refine (compileParameters_yields ps (h.mono hSame hLe)).bind
        fun args xs n'' s'' _ hLe' hSame' hArgs => ?_
      have hMem : s''.mem = s.mem := hArgs.2.trans hf.2
      rw [← hMem]
      refine emit_yields ⟨by simp, by simp, by simp⟩
        (.cons (hf.1.mono hSame' hLe') hArgs.1) ?_
      show (numArgs (xs.map .num)).bind _ = _
      rw [numArgs_num]
      rfl
    next => exact .fail

/-- The instructions for parameters compute their values. -/
theorem compileParameters_yields (ts : List TeExpr) {n : Nat} {s : State Datum Memory}
    (h : Bound params ρ n s) :
    (compileParameters A d params ts).Yields (processor A m d p) n s (TeExpr.evalAll A d ρ ts)
      fun args xs n' s' => List.Forall₂ (Holds n' s') args (xs.map .num) ∧ s'.mem = s.mem := by
  cases ts with
  | nil => exact .pure ⟨.nil, rfl⟩
  | cons t ts =>
    rw [compileParameters, TeExpr.evalAll]
    refine (compileExpression_yields t h).bind fun arg x n' s' _ hLe hSame hArg => ?_
    rw [Option.map_eq_bind]
    refine (compileParameters_yields ts (h.mono hSame hLe)).bind
      fun args xs n'' s'' _ hLe' hSame' hArgs => ?_
    exact .pure ⟨.cons (hArg.1.mono hSame' hLe') hArgs.1, hArgs.2.trans hArg.2⟩

end

end Tree

end IronArray
