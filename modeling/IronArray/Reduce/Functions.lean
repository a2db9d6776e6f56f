import IronArray.Core.Number

/-!
# Reduction functions

The functions of `operations/*.h`. A reduction keeps some state for each element of the
result and is given by an initial state, a step and a finish. The axis-by-axis reduction
calls the step in a loop over a vector, which `break`s at the elements that `stops` marks;
the one-shot reduction calls the same step for one element at a time.
-/

namespace IronArray

/-- `iarray_reduce_func_t`. -/
inductive ReduceFunc
  | max | nanMax | min | nanMin | sum | nanSum | prod | nanProd | mean | nanMean
  | var | nanVar | std | nanStd | median | nanMedian | all | any
deriving DecidableEq, Repr

/-- What the functions find in `user_data`: `mean` is the mean of the same result element. -/
structure UserData where
  invNelem : FP
  correction : FP
  mean : Num

/-- One over a number of elements. -/
def invNelem (n : Nat) : FP := (FP.fin 1).div (.fin n)

/-- The state of one result element: the result itself, the counters of elements and the
stored elements. Fields that a function leaves uninitialised are never read. -/
structure Acc where
  res : Num
  notNanNelems : Nat
  nanNelems : Nat
  medians : List Num
deriving DecidableEq

def Acc.start (v : Num) : Acc := ⟨v, 0, 0, []⟩

/-- `iarray_reduce_function_t` for elements of type `itype` and results of type `otype`. -/
structure ReduceFunction where
  itype : Dtype
  otype : Dtype
  init : Acc
  step : UserData → Acc → Num → Acc
  stops : Num → Bool
  finish : UserData → Acc → Result Num

namespace ReduceFunction

/-- The `reduction` of the axis-by-axis path: a loop over the elements of a vector. -/
def reduction (f : ReduceFunction) (u : UserData) : Acc → List Num → Acc
  | acc, [] => acc
  | acc, x :: xs => if f.stops x then f.step u acc x else f.reduction u (f.step u acc x) xs

/-- A reduction whose whole state is the result. -/
def simple (itype otype : Dtype) (init : Num) (step : Num → Num → Num) (stops : Num → Bool) :
    ReduceFunction where
  itype := itype
  otype := otype
  init := .start init
  step _ acc x := { acc with res := step acc.res x }
  stops := stops
  finish _ acc := .ok acc.res

end ReduceFunction

/-! ## Initial values -/

/-- The initial value of `MAX`. -/
def Dtype.lowest (d : Dtype) : Num :=
  if d.isFloating then .fp .ninf
  else if d.isSigned then .int (-(d.card / 2 : Nat))
  else .int 0

/-- The initial value of `MIN`. -/
def Dtype.highest (d : Dtype) : Num :=
  if d.isFloating then .fp .pinf
  else if d = .bool then .int 1
  else if d.isSigned then .int ((d.card / 2 : Nat) - 1)
  else .int (d.card - 1)

def Dtype.zero (d : Dtype) : Num := if d.isFloating then .fp (.fin 0) else .int 0

def Dtype.one (d : Dtype) : Num := if d.isFloating then .fp (.fin 1) else .int 1

/-- The result type of sums and products. -/
def Dtype.sumType : Dtype → Dtype
  | .double => .double
  | .float => .float
  | .uint64 | .uint32 | .uint16 | .uint8 => .uint64
  | .int64 | .int32 | .int16 | .int8 | .bool => .int64

/-- The result type of means, variances and medians. -/
def Dtype.meanType : Dtype → Dtype
  | .float => .float
  | _ => .double

namespace ReduceFunction

/-! ## Maximum and minimum -/

def maxStep (data0 data1 : Num) : Num := if data0.lt data1 then data1 else data0

def dfMaxStep (data0 data1 : Num) : Num :=
  if data1.isNan then .fp .nan else maxStep data0 data1

def nanMaxStep (data0 data1 : Num) : Num :=
  if !data1.isNan && (data0.lt data1 || data0.isNan) then data1 else data0

def minStep (data0 data1 : Num) : Num := if data1.lt data0 then data1 else data0

def dfMinStep (data0 data1 : Num) : Num :=
  if data1.isNan then .fp .nan else minStep data0 data1

def nanMinStep (data0 data1 : Num) : Num :=
  if !data1.isNan && (data0.isNan || data1.lt data0) then data1 else data0

def max (type : Dtype) : ReduceFunction :=
  if type.isFloating then simple type type type.lowest dfMaxStep Num.isNan
  else simple type type type.lowest maxStep fun _ => false

def nanMax (type : Dtype) : ReduceFunction :=
  simple type type (.fp .nan) nanMaxStep fun _ => false

def min (type : Dtype) : ReduceFunction :=
  if type.isFloating then simple type type type.highest dfMinStep Num.isNan
  else simple type type type.highest minStep fun _ => false

def nanMin (type : Dtype) : ReduceFunction :=
  simple type type (.fp .nan) nanMinStep fun _ => false

/-! ## Sums, products and means -/

def sumStep (otype : Dtype) (data0 data1 : Num) : Num := (data0.add data1).assign otype

def nanSumStep (otype : Dtype) (data0 data1 : Num) : Num :=
  if data1.isNan then data0 else sumStep otype data0 data1

def prodStep (otype : Dtype) (data0 data1 : Num) : Num := (data0.mul data1).assign otype

def nanProdStep (otype : Dtype) (data0 data1 : Num) : Num :=
  if data1.isNan then data0 else prodStep otype data0 data1

def sum (itype : Dtype) : ReduceFunction :=
  simple itype itype.sumType itype.sumType.zero (sumStep itype.sumType) fun _ => false

def nanSum (itype : Dtype) : ReduceFunction :=
  simple itype itype.sumType itype.sumType.zero (nanSumStep itype.sumType) fun _ => false

def prod (itype : Dtype) : ReduceFunction :=
  simple itype itype.sumType itype.sumType.one (prodStep itype.sumType) fun _ => false

def nanProd (itype : Dtype) : ReduceFunction :=
  simple itype itype.sumType itype.sumType.one (nanProdStep itype.sumType) fun _ => false

def mean (itype : Dtype) : ReduceFunction where
  itype := itype
  otype := itype.meanType
  init := .start itype.meanType.zero
  step _ acc x := { acc with res := sumStep itype.meanType acc.res x }
  stops _ := false
  finish u acc := .ok ((acc.res.mul (.fp u.invNelem)).assign itype.meanType)

def nanMean (itype : Dtype) : ReduceFunction where
  itype := itype
  otype := itype.meanType
  init := .start itype.meanType.zero
  step _ acc x :=
    if x.isNan then acc
    else { acc with
      res := sumStep itype.meanType acc.res x
      notNanNelems := acc.notNanNelems + 1 }
  stops _ := false
  finish _ acc := .ok (.fp (acc.res.toFP.div (.fin acc.notNanNelems)))

/-! ## Variance and standard deviation -/

/-- `dif * dif` is added to the result, where `dif` is the distance to the mean. -/
def varStep (u : UserData) (data0 data1 : Num) : Num :=
  let dif := data1.toFP.sub u.mean.toFP
  .fp (data0.toFP.add (dif.mul dif))

def varFinish (u : UserData) (acc : Acc) : FP := acc.res.toFP.mul u.invNelem

def nanVarFinish (u : UserData) (acc : Acc) : FP :=
  let nelem : FP := .fin acc.notNanNelems
  if (nelem.sub u.correction).lt (.fin 0) then acc.res.toFP.div nelem
  else acc.res.toFP.div (nelem.sub u.correction)

def nanVarStep (u : UserData) (acc : Acc) (x : Num) : Acc :=
  if x.isNan then acc
  else { acc with res := varStep u acc.res x, notNanNelems := acc.notNanNelems + 1 }

def var (itype : Dtype) : ReduceFunction where
  itype := itype
  otype := itype.meanType
  init := .start itype.meanType.zero
  step u acc x := { acc with res := varStep u acc.res x }
  stops _ := false
  finish u acc := .ok (.fp (varFinish u acc))

def nanVar (itype : Dtype) : ReduceFunction :=
  { var itype with
    step := nanVarStep
    finish := fun u acc => .ok (.fp (nanVarFinish u acc)) }

def std (m : Machine) (itype : Dtype) : ReduceFunction :=
  { var itype with finish := fun u acc => .ok (.fp (m.sqrt (varFinish u acc))) }

def nanStd (m : Machine) (itype : Dtype) : ReduceFunction :=
  { nanVar itype with finish := fun u acc => .ok (.fp (m.sqrt (nanVarFinish u acc))) }

/-! ## Median -/

/-- The type in which two elements are added. -/
def promote : Dtype → Dtype
  | .int16 | .int8 | .uint16 | .uint8 | .bool => .int32
  | d => d

/-- Sort and take the middle element, or the mean of the two middle ones. Without elements
the entry in front of the first one is read. -/
def middle (itype : Dtype) (medians : List Num) : Result Num :=
  let sorted := medians.mergeSort fun a b => !b.lt a
  let nelem := medians.length
  if nelem % 2 = 0 then
    match nelem, sorted[nelem / 2 - 1]?, sorted[nelem / 2]? with
    | _ + 1, some a, some b =>
      .ok (.fp (((a.add b).assign (promote itype)).toFP.mul (.fin (1 / 2))))
    | _, _, _ => crash .outOfBounds
  else
    match sorted[nelem / 2]? with
    | some a => .ok (.fp a.toFP)
    | none => crash .outOfBounds

def median (itype : Dtype) : ReduceFunction where
  itype := itype
  otype := itype.meanType
  init := .start itype.meanType.zero
  step _ acc x :=
    let acc := { acc with medians := acc.medians ++ [x] }
    if x.isNan then { acc with nanNelems := acc.nanNelems + 1 }
    else { acc with notNanNelems := acc.notNanNelems + 1 }
  stops _ := false
  finish _ acc := if acc.nanNelems = 0 then middle itype acc.medians else .ok (.fp .nan)

def nanMedian (itype : Dtype) : ReduceFunction where
  itype := itype
  otype := itype.meanType
  init := .start itype.meanType.zero
  step _ acc x :=
    if x.isNan then { acc with nanNelems := acc.nanNelems + 1 }
    else { acc with
      medians := acc.medians ++ [x]
      notNanNelems := acc.notNanNelems + 1 }
  stops _ := false
  finish _ acc := if acc.notNanNelems = 0 then .ok (.fp .nan) else middle itype acc.medians

/-! ## Truth of all and of any -/

/-- The elements that make the result of `ALL` false. -/
def allStops (type : Dtype) (data1 : Num) : Bool :=
  if type.isFloating then data1.isFinite && !data1.truth else !data1.truth

/-- The elements that make the result of `ANY` true. -/
def anyStops (type : Dtype) (data1 : Num) : Bool :=
  if type.isFloating then !data1.isFinite || data1.truth else data1.truth

def all (type : Dtype) : ReduceFunction :=
  simple type .bool (.int 1) (fun data0 data1 => if allStops type data1 then .int 0 else data0)
    (allStops type)

def any (type : Dtype) : ReduceFunction :=
  simple type .bool (.int 0) (fun data0 data1 => if anyStops type data1 then .int 1 else data0)
    (anyStops type)

end ReduceFunction

/-! ## The function tables -/

/-- The variants that skip NaN exist for floating-point elements only. -/
def nanReduction (f : Dtype → ReduceFunction) (d : Dtype) : Result ReduceFunction :=
  if d.isFloating then .ok (f d) else inaError .invalidDtype

/-- The function that `_iarray_reduce` and `_iarray_reduce2` choose for a type. -/
def reduceFunction (m : Machine) (func : ReduceFunc) (d : Dtype) : Result ReduceFunction :=
  match func with
  | .max => .ok (.max d)
  | .nanMax => nanReduction .nanMax d
  | .min => .ok (.min d)
  | .nanMin => nanReduction .nanMin d
  | .sum => .ok (.sum d)
  | .nanSum => nanReduction .nanSum d
  | .prod => .ok (.prod d)
  | .nanProd => nanReduction .nanProd d
  | .mean => .ok (.mean d)
  | .nanMean => nanReduction .nanMean d
  | .var => .ok (.var d)
  | .nanVar => nanReduction .nanVar d
  | .std => .ok (.std m d)
  | .nanStd => nanReduction (.nanStd m) d
  | .median => .ok (.median d)
  | .nanMedian => nanReduction .nanMedian d
  | .all => .ok (.all d)
  | .any => .ok (.any d)

/-- The reductions that the axis-by-axis path carries out. -/
def ReduceFunc.isMulti : ReduceFunc → Bool
  | .nanMean | .var | .nanVar | .std | .nanStd | .median | .nanMedian => false
  | _ => true

/-- The reductions that accept a correction of the number of elements. -/
def ReduceFunc.hasCorrection : ReduceFunc → Bool
  | .var | .nanVar | .std | .nanStd => true
  | _ => false

end IronArray
