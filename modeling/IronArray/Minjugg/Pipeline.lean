import IronArray.Expression.Elementwise
import IronArray.Minjugg.Roundtrip
import IronArray.Minjugg.Support

/-!
# Evaluated expressions

From a written expression to the array that is computed: the text is parsed, compiled and linked, the
compiled function runs on every block, and at every index the result is the value of the expression
for the elements of the operands at the index: `eval_formula`.
-/

namespace IronArray

open Grid CatArray Ssa Llvm

/-! ## Expressions that always have a value -/

/-- A registered function that gives a number of a type for numbers of the type. -/
def Arithmetic.Total (A : Arithmetic) (d : Dtype) (udf : Udf) : Prop :=
  ∀ xs : List Num, xs.length = udf.numArgs → (∀ x ∈ xs, x.Of d) →
    ∃ y, A.udf udf.functionPtr xs = some y ∧ y.Of d

namespace TeExpr

variable (A : Arithmetic) (d : Dtype)

mutual

/-- No integers are divided, and the registered functions have values. -/
def Safe : TeExpr → Prop
  | teFunction f ps => (d.isFloating ∨ f ≠ .divide) ∧ AllSafe ps
  | teCustom udf ps => A.Total d udf ∧ AllSafe ps
  | _ => True

def AllSafe : List TeExpr → Prop
  | [] => True
  | t :: ts => Safe t ∧ AllSafe ts

end

end TeExpr

section Total

variable {A : Arithmetic} {d : Dtype} {f : ExprType} {xs : List Num}

theorem mapM_fp (hReal : d.isFloating = true) (h : ∀ x ∈ xs, x.Of d) :
    ∃ ys, xs.mapM Num.fp? = some ys := by
  induction xs with
  | nil => exact ⟨[], rfl⟩
  | cons x xs ih =>
    obtain ⟨y, rfl⟩ := Num.of_floating hReal (h x List.mem_cons_self)
    obtain ⟨ys, hys⟩ := ih fun x hx => h x (List.mem_cons_of_mem _ hx)
    rw [List.mapM_cons, hys]
    exact ⟨y :: ys, rfl⟩

theorem mapM_int (hReal : d.isFloating = false) (h : ∀ x ∈ xs, x.Of d) :
    ∃ zs, xs.mapM Num.int? = some zs ∧ zs.length = xs.length ∧ ∀ z ∈ zs, d.wrap z = z := by
  induction xs with
  | nil => exact ⟨[], rfl, rfl, fun _ hz => absurd hz List.not_mem_nil⟩
  | cons x xs ih =>
    obtain ⟨z, rfl, hz⟩ := Num.of_integral hReal (h x List.mem_cons_self)
    obtain ⟨zs, hzs, hLength, hAll⟩ := ih fun x hx => h x (List.mem_cons_of_mem _ hx)
    rw [List.mapM_cons, hzs]
    exact ⟨z :: zs, rfl, congrArg _ hLength, List.forall_mem_cons.mpr ⟨hz, hAll⟩⟩

/-- An operation on integers other than the quotient gives an integer of the type. -/
theorem int_total (hReal : d.isFloating = false) (hAvailable : f.Available d) (hDivide : f ≠ .divide)
    {zs : List Int} (hArity : f.realArity = some zs.length) (hAll : ∀ z ∈ zs, d.wrap z = z) :
    ∃ z, f.int d zs = some z ∧ d.wrap z = z := by
  have hOne : ∀ {k : Nat}, some k = some zs.length → zs.length = k :=
    fun h => (Option.some.inj h).symm
  obtain ⟨-, hFloat | hOperation | ⟨hSigned, hInts⟩⟩ := hAvailable
  · rw [hReal] at hFloat
    cases hFloat
  · rcases hOperation with rfl | rfl | rfl | rfl | rfl
    · obtain ⟨a, b, rfl⟩ := List.length_eq_two.mp (hOne hArity)
      exact ⟨_, rfl, Dtype.wrap_wrap d _⟩
    · obtain ⟨a, b, rfl⟩ := List.length_eq_two.mp (hOne hArity)
      exact ⟨_, rfl, Dtype.wrap_wrap d _⟩
    · obtain ⟨a, b, rfl⟩ := List.length_eq_two.mp (hOne hArity)
      exact ⟨_, rfl, Dtype.wrap_wrap d _⟩
    · exact absurd rfl hDivide
    · obtain ⟨a, rfl⟩ := List.length_eq_one_iff.mp (hOne hArity)
      exact ⟨_, rfl, Dtype.wrap_wrap d _⟩
  · rcases hInts with rfl | rfl | rfl
    · obtain ⟨a, rfl⟩ := List.length_eq_one_iff.mp (hOne hArity)
      exact ⟨_, if_pos hSigned, Dtype.wrap_wrap d _⟩
    · obtain ⟨a, b, rfl⟩ := List.length_eq_two.mp (hOne hArity)
      refine ⟨_, if_pos hSigned, ?_⟩
      rcases min_choice a b with h | h <;> rw [h] <;> apply hAll <;> simp
    · obtain ⟨a, b, rfl⟩ := List.length_eq_two.mp (hOne hArity)
      refine ⟨_, if_pos hSigned, ?_⟩
      rcases max_choice a b with h | h <;> rw [h] <;> apply hAll <;> simp

theorem apply_total (hAvailable : f.Available d) (hSafe : d.isFloating ∨ f ≠ .divide)
    (hArity : f.realArity = some xs.length) (hAll : ∀ x ∈ xs, x.Of d) :
    ∃ y, f.apply A d xs = some y ∧ y.Of d := by
  by_cases hReal : d.isFloating
  · obtain ⟨ys, hys⟩ := mapM_fp hReal hAll
    rw [ExprType.apply, if_pos hReal, if_pos hArity, hys]
    exact ⟨_, rfl, hReal⟩
  · have hReal' : d.isFloating = false := by simpa using hReal
    obtain ⟨zs, hzs, hLength, hWrap⟩ := mapM_int hReal' hAll
    obtain ⟨z, hz, hOf⟩ := int_total hReal' hAvailable (hSafe.resolve_left hReal)
      (hLength.symm ▸ hArity) hWrap
    rw [ExprType.apply, if_neg hReal, hzs, Option.bind_some, hz]
    exact ⟨_, rfl, hReal', hOf⟩

theorem constant_of {value : FP} (h : (constant A d value).isSome) :
    ∃ x, constant A d value = some x ∧ x.Of d := by
  obtain ⟨x, hx⟩ := Option.isSome_iff_exists.mp h
  refine ⟨x, hx, ?_⟩
  unfold constant at hx
  split at hx
  next hReal =>
    cases hx
    exact hReal
  next hReal =>
    obtain ⟨z, hz, rfl⟩ := Option.map_eq_some_iff.mp hx
    refine ⟨by simpa using hReal, ?_⟩
    unfold Dtype.truncate at hz
    split at hz
    · obtain ⟨hWrap, hEq⟩ := Option.ite_none_right_eq_some.mp hz
      cases hEq
      exact hWrap
    · cases hz

variable {vars : List String} {ρ : String → Option Num}

mutual

/-- A safe expression of numbers of its type is a number of its type. -/
theorem eval_total (hVars : ∀ x ∈ vars, ∃ v, ρ x = some v ∧ v.Of d) (t : TeExpr)
    (hFormed : t.Formed vars) (hFits : t.Fits A d) (hSafe : t.Safe A d) :
    ∃ v, t.eval A d ρ = some v ∧ v.Of d := by
  cases t with
  | teNone => exact hFormed.elim
  | teConstant value =>
    rw [TeExpr.eval]
    exact constant_of hFits
  | teVariable bound =>
    rw [TeExpr.eval]
    exact hVars bound hFormed
  | teFunction f ps =>
    simp only [TeExpr.Formed, TeExpr.Fits, TeExpr.Safe] at hFormed hFits hSafe
    obtain ⟨xs, hxs, hLength, hAll⟩ := evalAll_total hVars ps hFormed.2 hFits.2 hSafe.2
    have hArity : f.realArity = some xs.length := by
      obtain ⟨k, hk⟩ := Option.isSome_iff_exists.mp hFits.1.1
      have hEq := hFormed.1
      rw [hk] at hEq ⊢
      rw [hLength]
      exact congrArg some hEq
    rw [TeExpr.eval, hxs]
    exact apply_total hFits.1 hSafe.1 hArity hAll
  | teCustom udf ps =>
    simp only [TeExpr.Formed, TeExpr.Fits, TeExpr.Safe] at hFormed hFits hSafe
    obtain ⟨xs, hxs, hLength, hAll⟩ := evalAll_total hVars ps hFormed.2 hFits hSafe.2
    rw [TeExpr.eval, if_pos hFormed.1, hxs]
    exact hSafe.1 xs (hLength.trans hFormed.1) hAll

theorem evalAll_total (hVars : ∀ x ∈ vars, ∃ v, ρ x = some v ∧ v.Of d) (ts : List TeExpr)
    (hFormed : TeExpr.AllFormed vars ts) (hFits : TeExpr.AllFit A d ts)
    (hSafe : TeExpr.AllSafe A d ts) :
    ∃ xs, TeExpr.evalAll A d ρ ts = some xs ∧ xs.length = ts.length ∧ ∀ x ∈ xs, x.Of d := by
  cases ts with
  | nil => exact ⟨[], rfl, rfl, fun _ hx => absurd hx List.not_mem_nil⟩
  | cons t ts =>
    obtain ⟨x, hx, hOf⟩ := eval_total hVars t hFormed.1 hFits.1 hSafe.1
    obtain ⟨xs, hxs, hLength, hAll⟩ := evalAll_total hVars ts hFormed.2 hFits.2 hSafe.2
    rw [TeExpr.evalAll, hx, Option.bind_some, hxs]
    exact ⟨x :: xs, rfl, congrArg _ hLength, List.forall_mem_cons.mpr ⟨hOf, hAll⟩⟩

end

end Total

/-! ## Compiled expressions -/

/-- The value of a tree, as an element. -/
def treeCell (A : Arithmetic) (d : Dtype) (vars : List String) (t : TeExpr) (cells : List Cell) :
    Cell :=
  ((t.eval A d (hashtableGet (vars.zip (cells.map (Cell.num d))))).map (Num.cell d)).getD (.bits 0)

section Compiled

variable {A : Arithmetic} {m : Machine} {d : Dtype} {t : TeExpr} {vars : List String}

/-- Every operand has a number. -/
theorem hashtableGet_total {cells : List Cell} (hLength : cells.length = vars.length) :
    ∀ x ∈ vars, ∃ v, hashtableGet (vars.zip (cells.map (Cell.num d))) x = some v ∧ v.Of d := by
  intro x hx
  have hSome : (hashtableGet (vars.zip (cells.map (Cell.num d))) x).isSome := by
    rw [hashtableGet_isSome, List.map_fst_zip (by simp [hLength])]
    exact hx
  obtain ⟨v, hv⟩ := Option.isSome_iff_exists.mp hSome
  refine ⟨v, hv, ?_⟩
  obtain ⟨l₁, l₂, hEq, -⟩ := List.lookup_eq_some_iff.mp hv
  have hMem : (x, v) ∈ vars.zip (cells.map (Cell.num d)) := by
    apply List.mem_reverse.mp
    rw [hEq]
    simp
  obtain ⟨c, -, rfl⟩ := List.mem_map.mp (List.of_mem_zip hMem).2
  exact Cell.num_of d c

/-- An element behind a pointer to elements of the type. -/
theorem loadElement_eq {q : Pointer} (h : q.dtype = d) (k : Nat) :
    loadElement m d q k = (q.load m k).num d := by
  subst h
  rfl

theorem operandValue_eq {p : EvalPparams} (h : ∀ q ∈ p.inputs, q.dtype = d) (i : Nat) :
    operandValue m d p vars i =
      hashtableGet (vars.zip ((p.inputs.map fun q => q.load m i).map (Cell.num d))) := by
  have hSame : (p.inputs.map fun q => q.load m i).map (Cell.num d) =
      p.inputs.map fun q => loadElement m d q i := by
    rw [List.map_map]
    exact List.map_congr_left fun q hq => (loadElement_eq (h q hq) i).symm
  rw [hSame, List.zip_map_right]
  rfl

/-- A compiled expression computes each element from the elements of the operands. -/
theorem compiled_cellwise {engine : Engine} (hEngine : engine.Lawful A m)
    {code : List (Block Op Datum)} (hCode : compileFunction A d t vars = some code) {f : EvalFn}
    (hFunc : engine d code = some f) (hFormed : t.Formed vars) (hFits : t.Fits A d)
    (hSafe : t.Safe A d) {ret : Container} (hItem : ret.catarr.itemsize = d.size)
    (hSmall : ret.catarr.chunksize < 2 ^ 31) :
    CellwiseOn (CallOf (· = d) ret vars.length) m f (treeCell A d vars t) := by
  intro p out hp
  obtain ⟨N, hN⟩ := hp.items
  have hType : p.outTypesize = d.size := hp.outTypesize.trans hItem
  have hBlock : BlockOf p N := by
    refine ⟨hN.trans (Nat.mul_comm _ _), ?_, hp.outSize.trans_lt hSmall⟩
    rw [hType]
    exact d.size_pos
  have hTypesize : p.outTypesize < 2 ^ 31 := by
    rw [hType]
    cases d <;> decide
  obtain ⟨S, rfl⟩ := Sections.of_compileFunction hCode
  have hCells : ∀ i, (p.inputs.map fun q => q.load m i).length = vars.length :=
    fun i => (List.length_map _).trans hp.inputs
  have hValue : ∀ i, ∃ v, t.eval A d (operandValue m d p vars i) = some v ∧ v.Of d := by
    intro i
    rw [operandValue_eq hp.dtypes]
    exact eval_total (hashtableGet_total (hCells i)) t hFormed hFits hSafe
  have hSome : ∀ i < N, (t.eval A d (operandValue m d p vars i)).isSome := by
    intro i _
    obtain ⟨v, hv, -⟩ := hValue i
    rw [hv]
    rfl
  obtain ⟨s, hOut, hReturns⟩ := S.run_values (m := m) out hp.inputs hBlock hTypesize hSome
  have hCall := hEngine.runs d _ f p out s hFunc ((hReturns _).mpr rfl)
  refine ⟨s.mem.out, hCall, fun y _ hRoom => ?_⟩
  have hLess : dot y p.window.strides < N := by
    rw [hN, Nat.mul_comm] at hRoom
    exact Nat.lt_of_mul_lt_mul_left hRoom
  obtain ⟨x, hx, -⟩ := hValue (dot y p.window.strides)
  rw [hOut, Sections.written_lt hLess hx]
  rw [operandValue_eq hp.dtypes] at hx
  rw [treeCell, hx]
  rfl

end Compiled

/-! ## Expressions of floating-point numbers -/

theorem functions_available {d : Dtype} (hReal : d.isFloating) {b : Builtin} (h : b ∈ functions) :
    b.function.Available d := by
  refine ⟨?_, .inl hReal⟩
  rw [functions_realArity b h]
  rfl

theorem allFit_of_forall {A : Arithmetic} {d : Dtype} {ts : List TeExpr}
    (h : ∀ t ∈ ts, t.Fits A d) : TeExpr.AllFit A d ts := by
  induction ts with
  | nil => trivial
  | cons t ts ih =>
    exact ⟨h t List.mem_cons_self, ih fun u hu => h u (List.mem_cons_of_mem _ hu)⟩

/-- Every written expression of floating-point numbers compiles. -/
theorem Formula.fits_floating {A : Arithmetic} {d : Dtype} (hReal : d.isFloating) {L : Lexicon}
    (f : Formula L) : f.tree.Fits A d := by
  induction f with
  | number n =>
    show (constant A d _).isSome
    rw [constant, if_pos hReal]
    rfl
  | operand x => trivial
  | negative a ih => exact ⟨⟨rfl, .inl hReal⟩, ih, trivial⟩
  | binary o a b iha ihb =>
    refine ⟨⟨?_, .inl hReal⟩, iha, ihb, trivial⟩
    cases o <;> rfl
  | builtin b args ih =>
    refine ⟨functions_available hReal b.mem, allFit_of_forall ?_⟩
    exact List.forall_mem_map.mpr fun i _ => ih i
  | custom b args ih => exact allFit_of_forall (List.forall_mem_map.mpr fun i _ => ih i)

/-! ## Evaluated expressions -/

section Evaluation

variable {E : Backend} {S : Surroundings} {e e' : Expression} {f : EvalFn} {g : List Cell → Cell}
  {As : List (NdArray Cell)} {ret : Container} {T : Dtype → Prop}

theorem callOn_keeps {call : BindCall} (h : (callOn e call).outcome = .ok e') :
    e'.jugDtype = e.jugDtype ∧ e'.outDtshape = e.outDtshape ∧
      e'.outStoreProperties = e.outStoreProperties := by
  cases call with
  | bind var val =>
    by_cases hRoom : e.vars.length < exprOperandsMax
    · rw [callOn_bind hRoom] at h
      cases h
      exact ⟨rfl, rfl, rfl⟩
    · have hIndex : (Table.vars.index e.vars.length).outcome = crash .outOfBounds := if_neg hRoom
      rw [callOn, BindCall.run, iarrayExprBind, Logged.bind_of_error hIndex] at h
      cases h
  | bindParam val =>
    rw [callOn_bindParam] at h
    cases h
    split
    · exact ⟨rfl, rfl, rfl⟩
    · exact ⟨rfl, rfl, rfl⟩

/-- Binding changes neither the type nor what is said about the output. -/
theorem bindAll_keeps {calls : List BindCall} (h : (bindAll e calls).outcome = .ok e') :
    e'.jugDtype = e.jugDtype ∧ e'.outDtshape = e.outDtshape ∧
      e'.outStoreProperties = e.outStoreProperties := by
  induction calls generalizing e with
  | nil =>
    cases h
    exact ⟨rfl, rfl, rfl⟩
  | cons call calls ih =>
    rw [bindAll, List.foldlM_cons] at h
    obtain ⟨e₁, hCall, h⟩ := Logged.bind_eq_ok.mp h
    obtain ⟨hType, hDtshape, hStore⟩ := ih h
    obtain ⟨hType₁, hDtshape₁, hStore₁⟩ := callOn_keeps hCall
    exact ⟨hType.trans hType₁, hDtshape.trans hDtshape₁, hStore.trans hStore₁⟩

/-- An evaluation of an element-wise function on operands of certain types, by either method. -/
theorem eval_on (hE : E.Lawful) (hLimits : E.Bounded) (hS : S.ViewsCompressed) {jug : Jug}
    (hPrepared : Prepared jug e) (hFunc : e.exprFunc = some f)
    (hf : CellwiseOn (CallOf T ret As.length) E.machine f g) (hTRet : T ret.dtshape.dtype)
    (hOperands : OperandsOf E e As) (hT : ∀ v ∈ e.vars, T v.2.dtshape.dtype)
    (hAll : ∀ v ∈ e.vars, ¬ v.2.Unreadable)
    (hEmpty : iarrayEmpty E e.outDtshape e.outStoreProperties = .ok ret)
    (hRank : e.outDtshape.ndim ≠ 0) (hPos : ∀ n ∈ e.outDtshape.shape, 0 < n)
    (hShort : ∀ n ∈ e.outStoreProperties.chunkshape, n < 2 ^ 31) {method : EvalMethod}
    (hMethod : method = .iterblosc ∧ e.vars.length ≤ dimensionMax ∨ method = .iterchunk) :
    ∃ c, (iarrayEval E S { e with evalMethod := method }).outcome = .ok c ∧
      PlainOf e.outDtshape e.outStoreProperties c ∧
      ∀ x, InBox x e.outDtshape.shape → c.contents.get x = elementwise g As x := by
  obtain ⟨hRet, hAxes⟩ := filled_of_empty hE hEmpty hRank hPos hShort
  obtain ⟨-, hDtshape, hStorage⟩ := iarrayEmpty_plain hE hEmpty
  have hVars := hOperands.matching hE hLimits hEmpty hPos
  have hBounded : ({ e with evalMethod := method } : Expression).Bounded :=
    ⟨hPrepared.bounded.vars, hPrepared.bounded.userParams⟩
  have hReadable : List.Forall₂ (fun v A => Matching ret v.2 A ∧
      v.2.Readable ret.catarr.chunkshape) e.vars As :=
    ((List.forall₂_and_left _ _).mpr ⟨hAll, hVars⟩).imp fun v A hv =>
      ⟨hv.2.1, hv.2.2.resolve_right hv.1⟩
  have hRun : ∃ c, (iarrayEval E S { e with evalMethod := method }).outcome = .ok c ∧
      PlainOf ret.dtshape ret.storage c ∧
      ∀ x, InBox x ret.catarr.shape → c.catarr.get x = elementwise g As x := by
    rcases hMethod with ⟨rfl, hFew⟩ | rfl
    · obtain ⟨c, hOk, hResult⟩ := iterblosc_on (e := { e with evalMethod := .iterblosc }) hE hS
        hRet hAxes hFunc hf hTRet hBounded hFew hReadable hT
      exact ⟨c, Logged.bind_eq_ok.mpr ⟨ret, hEmpty, hOk⟩, hResult⟩
    · obtain ⟨hSize, hBytes⟩ := hPrepared.sizes
      obtain ⟨c, hOk, hResult⟩ := iterchunk_on (e := { e with evalMethod := .iterchunk })
        (S := S) hE hRet hAxes hFunc hf hBounded hDtshape.symm hSize hBytes hReadable hT
      exact ⟨c, Logged.bind_eq_ok.mpr ⟨ret, hEmpty, hOk⟩, hResult⟩
  obtain ⟨c, hOk, hCont, hGet⟩ := hRun
  refine ⟨c, hOk, hDtshape ▸ hStorage ▸ hCont, fun x hx => hGet x ?_⟩
  have hShape : ret.catarr.shape = e.outDtshape.shape :=
    hRet.plain.fresh.shape.trans (congrArg Dtshape.shape hDtshape)
  rwa [hShape]

end Evaluation

theorem chunksize_small {E : Backend} (hLimits : E.Bounded) {dtshape : Dtshape} {store : Storage}
    {ret : Container} (h : iarrayEmpty E dtshape store = .ok ret) :
    ret.catarr.chunksize < 2 ^ 31 := by
  obtain ⟨container, hNew, h⟩ := Result.bind_eq_ok.mp h
  obtain ⟨catarr, hEmpty, h⟩ := Result.bind_eq_ok.mp h
  cases h
  obtain ⟨-, rfl⟩ := containerNew_ok hNew
  exact hLimits.empty hEmpty

/-- The numbers of the operands at an index. -/
def operandsAt (d : Dtype) (vars : List String) (As : List (NdArray Cell)) (x : List Nat) :
    String → Option Num :=
  hashtableGet (vars.zip (As.map fun A => (A.get x).num d))

/-- A written expression of operands of one type compiles, and by either method its evaluation gives
at every index the value of the expression for the elements of the operands there. -/
theorem eval_formula {E : Backend} (hE : E.Lawful) (hLimits : E.Bounded) {S : Surroundings}
    (hS : S.ViewsCompressed) {A : Arithmetic} {engine : Engine} (hEngine : engine.Lawful A E.machine)
    {toDouble : ℚ → FP} {registry : UdfRegistry} {jug : Jug}
    (hJug : jug.expressionCompile = jugExpressionCompile engine A toDouble registry)
    {d : Dtype} (hType : jugDtype d = .ok d) {shape : List Nat} {store : Storage}
    {method₀ : EvalMethod} {e₀ e₁ : Expression} {calls : List BindCall}
    (hNew : iarrayExprNew method₀ d ⟨d, shape⟩ store = .ok e₀)
    (hBind : (bindAll e₀ calls).outcome = .ok e₁) {As : List (NdArray Cell)}
    (hOperands : OperandsOf E e₁ As) (hTypes : ∀ v ∈ e₁.vars, v.2.dtshape.dtype = d)
    (hReadable : ∀ v ∈ e₁.vars, ¬ v.2.Unreadable)
    (f : Formula ⟨toDouble, e₁.vars.map Prod.fst, registry⟩) (hFits : f.tree.Fits A d)
    (hSafe : f.tree.Safe A d) {ret : Container}
    (hEmpty : iarrayEmpty E ⟨d, shape⟩ store = .ok ret) (hRank : shape ≠ [])
    (hPos : ∀ n ∈ shape, 0 < n) (hShort : ∀ n ∈ store.chunkshape, n < 2 ^ 31) :
    ∃ e, (iarrayExprCompile jug e₁ (String.ofList (f.text 0))).outcome = .ok e ∧
      ∀ method, (method = .iterblosc ∧ e₁.vars.length ≤ dimensionMax ∨ method = .iterchunk) →
        ∃ c, (iarrayEval E S { e with evalMethod := method }).outcome = .ok c ∧
          PlainOf ⟨d, shape⟩ store c ∧ ∀ x, InBox x shape → ∃ v,
            f.tree.eval A d (operandsAt d (e₁.vars.map Prod.fst) As x) = some v ∧
              c.contents.get x = v.cell d := by
  have hNotBool : d ≠ .bool := by
    rintro rfl
    cases hType
  obtain ⟨hKind, hDtshape, hStore⟩ := bindAll_keeps hBind
  obtain ⟨_, hJugDtype, h₀⟩ := Result.bind_eq_ok.mp hNew
  cases h₀
  cases hType.symm.trans hJugDtype
  -- the expression compiles
  have hLexes : Grammar.Lexes ⟨toDouble, e₁.vars.map Prod.fst, registry⟩
      (String.ofList (f.text 0)).toList (f.tokens 0) := by
    rw [String.toList_ofList]
    exact f.text_lexes
  have hBounded := bindAll_bounded (bounded_of_new hNew) hBind
  obtain ⟨code, func, hCode, hFunc, hOk⟩ := jugExpressionCompile_ok hEngine hNotBool
    (by rw [List.length_map]; exact hBounded.vars) hLexes f.tokens_accepted hFits
  have hCompile : (iarrayExprCompile jug e₁ (String.ofList (f.text 0))).outcome =
      .ok { _iarrayExprPrepare e₁ with exprFunc := some func } := by
    refine Logged.bind_eq_ok.mpr ⟨(), Table.each_ok hBounded.vars, ?_⟩
    refine Logged.bind_eq_ok.mpr ⟨func, ?_, rfl⟩
    show jug.expressionCompile e₁.jugDtype _ _ = _
    rw [hJug, hKind]
    exact hOk
  refine ⟨_, hCompile, fun method hMethod => ?_⟩
  -- and its function is element-wise
  have hPlainOf := iarrayEmpty_plain hE hEmpty
  have hItem : ret.catarr.itemsize = d.size := by
    rw [hPlainOf.plain.fresh.itemsize, hPlainOf.dtshape]
    rfl
  have hCellwise := compiled_cellwise hEngine hCode hFunc (accepted_formed hLexes f.tokens_accepted)
    hFits hSafe hItem (chunksize_small hLimits hEmpty)
  rw [List.length_map, hOperands.length_eq] at hCellwise
  have hPrepared : Prepared jug { _iarrayExprPrepare e₁ with exprFunc := some func } :=
    ⟨method₀, d, ⟨d, shape⟩, store, _, calls, e₁, .expr _, hNew, hBind, hCompile⟩
  obtain ⟨c, hEval, hPlain, hGet⟩ := eval_on
    (e := { _iarrayExprPrepare e₁ with exprFunc := some func }) hE hLimits hS hPrepared rfl hCellwise
    (congrArg Dtshape.dtype hPlainOf.dtshape) hOperands hTypes hReadable
    (show iarrayEmpty E e₁.outDtshape e₁.outStoreProperties = .ok ret by rwa [hDtshape, hStore])
    (show e₁.outDtshape.ndim ≠ 0 by rw [hDtshape]; exact List.length_pos_iff.mpr hRank |>.ne')
    (show ∀ n ∈ e₁.outDtshape.shape, 0 < n by rwa [hDtshape])
    (show ∀ n ∈ e₁.outStoreProperties.chunkshape, n < 2 ^ 31 by rwa [hStore]) hMethod
  refine ⟨c, hEval, ?_, fun x hx => ?_⟩
  · have hPlain' : PlainOf e₁.outDtshape e₁.outStoreProperties c := hPlain
    rwa [hDtshape, hStore] at hPlain'
  · have hCells : (As.map fun A => A.get x).length = (e₁.vars.map Prod.fst).length := by
      rw [List.length_map, List.length_map, hOperands.length_eq]
    obtain ⟨v, hv, -⟩ := eval_total (hashtableGet_total (d := d) hCells) f.tree
      (accepted_formed hLexes f.tokens_accepted) hFits hSafe
    have hAt := hGet x (show InBox x e₁.outDtshape.shape by rwa [hDtshape])
    rw [elementwise, treeCell, hv] at hAt
    refine ⟨v, ?_, hAt⟩
    rw [List.map_map] at hv
    exact hv

namespace PipelineExample

open ElementwiseExample

/-- Exact sums, differences and products. -/
def exact : Arithmetic where
  constant _ x := x
  real
    | _, .add, [.fin a, .fin b] => .fin (a + b)
    | _, .sub, [.fin a, .fin b] => .fin (a - b)
    | _, .mul, [.fin a, .fin b] => .fin (a * b)
    | _, .negate, [.fin a] => .fin (-a)
    | _, _, _ => .nan
  udf _ _ := none

noncomputable def jug : Jug where
  expressionCompile := jugExpressionCompile (referenceEngine exact Reference.bounded.machine) exact
    .fin []
  udfCompile _ _ _ := inaError .failed

def calls : List BindCall :=
  [.bind "x" narrow, .bind "y" cut, .bind "z" (ElementwiseExample.transposed tall)]

/-- The expression before it is compiled. -/
def bound : Expression :=
  { sum with
    evalMethod := .auto
    typesize := 0
    nbytes := 0
    exprFunc := none }

theorem isName_operands : IsName "x".toList ∧ IsName "y".toList ∧ IsName "z".toList := by
  decide

def formula : Formula ⟨.fin, bound.vars.map Prod.fst, []⟩ :=
  .binary .add (.negative (.operand ⟨"x", by decide, isName_operands.1⟩))
    (.binary .mul (.number ⟨[2], [5], none, by decide⟩)
      (.binary .sub (.operand ⟨"y", by decide, isName_operands.2.1⟩)
        (.operand ⟨"z", by decide, isName_operands.2.2⟩)))

theorem text_formula : String.ofList (formula.text 0) = "-x+2.5*(y-z)" := by decide

theorem operands : OperandsOf Reference.bounded bound
    [narrow.contents, wide.contents.slice [1, 1] [2, 3], tall.contents.transpose] :=
  operandsOf_sum

theorem value_formula : formula.tree.eval exact .double (operandsAt .double ["x", "y", "z"]
    [narrow.contents, wide.contents.slice [1, 1] [2, 3], tall.contents.transpose] [1, 2]) =
      some (.fp (.fin (-980))) := by
  have hNarrow : narrow.contents.get [1, 2] = .real (.fin (5 : Nat)) :=
    contents_plain (by decide)
  have hWide : wide.contents.get [2, 3] = .real (.fin (110 : Nat)) := contents_plain (by decide)
  have hTall : tall.contents.get [2, 1] = .real (.fin (500 : Nat)) := contents_plain (by decide)
  have hOperands : operandsAt .double ["x", "y", "z"]
      [narrow.contents, wide.contents.slice [1, 1] [2, 3], tall.contents.transpose] [1, 2] =
        hashtableGet [("x", (narrow.contents.get [1, 2]).num .double),
          ("y", (wide.contents.get [2, 3]).num .double),
          ("z", (tall.contents.get [2, 1]).num .double)] := rfl
  have hEval : ∀ a b c : ℚ, formula.tree.eval exact .double
      (hashtableGet [("x", .fp (.fin a)), ("y", .fp (.fin b)), ("z", .fp (.fin c))]) =
      some (.fp (.fin (-a + Numeral.value ⟨[2], [5], none, by decide⟩ * (b - c)))) :=
    fun _ _ _ => rfl
  rw [hOperands, hNarrow, hWide, hTall]
  refine (hEval _ _ _).trans ?_
  norm_num [Numeral.value, digitsValue, Nat.ofDigits]

end PipelineExample

open ElementwiseExample PipelineExample in
/-- An expression of a matrix, a part of a matrix and a transposed matrix. -/
theorem eval_formula_matrix :
    ∃ e, (iarrayExprCompile jug bound "-x+2.5*(y-z)").outcome = .ok e ∧
      (∃ c, run e .iterblosc = .ok c ∧ c.contents.get [1, 2] = .real (.fin (-980))) ∧
      ∃ c, run e .iterchunk = .ok c ∧ c.contents.get [1, 2] = .real (.fin (-980)) := by
  have hFits : formula.tree.Fits exact .double := formula.fits_floating rfl
  have hSafe : formula.tree.Safe exact .double :=
    ⟨.inl rfl, ⟨.inl rfl, trivial, trivial⟩, ⟨.inl rfl, trivial, ⟨.inl rfl, trivial, trivial, trivial⟩,
      trivial⟩, trivial⟩
  obtain ⟨e, hCompile, hEval⟩ := eval_formula (S := TableExample.surroundings)
    Reference.bounded_lawful Reference.bounded_bounded (fun _ _ _ => rfl)
    (referenceEngine_lawful exact _) (show jug.expressionCompile = _ from rfl)
    (show jugDtype .double = _ from rfl)
    (show iarrayExprNew .auto .double ⟨.double, [2, 3]⟩ ⟨[2, 2], [1, 2]⟩ = .ok _ from rfl)
    (show (bindAll _ calls).outcome = .ok bound from rfl) operands (by decide) (by decide) formula
    hFits hSafe rfl (by decide) (by decide) (by decide)
  rw [text_formula] at hCompile
  have hAt : ∀ {c : Container}, (∀ x, InBox x [2, 3] → ∃ v, formula.tree.eval exact .double
      (operandsAt .double ["x", "y", "z"] [narrow.contents, wide.contents.slice [1, 1] [2, 3],
        tall.contents.transpose] x) = some v ∧ c.contents.get x = v.cell .double) →
      c.contents.get [1, 2] = .real (.fin (-980)) := by
    intro c h
    obtain ⟨v, hv, hCell⟩ := h [1, 2] (by decide)
    cases hv.symm.trans value_formula
    exact hCell
  refine ⟨e, hCompile, ?_, ?_⟩
  · obtain ⟨c, hOk, -, hGet⟩ := hEval .iterblosc (.inl ⟨rfl, by decide⟩)
    exact ⟨c, hOk, hAt hGet⟩
  · obtain ⟨c, hOk, -, hGet⟩ := hEval .iterchunk (.inr rfl)
    exact ⟨c, hOk, hAt hGet⟩

end IronArray
