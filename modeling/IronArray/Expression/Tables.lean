import IronArray.Core.Reference
import IronArray.Expression.Code

/-!
# The tables of an expression

An expression keeps its operands in a table of fixed size, and an evaluation indexes further tables
by the same numbers. `session_inTable`: with at most eight operands, or with at most
`IARRAY_EXPR_OPERANDS_MAX` and the method "iterchunk", nothing is indexed behind the end of a table.
-/

namespace IronArray

open Grid

/-! ## A session -/

/-- The calls that fill the tables of an expression. -/
inductive BindCall
  | bind (var : String) (val : Container)
  | bindParam (val : Cell)

namespace BindCall

def run (e : Expression) : BindCall → Eval Expression
  | bind var val => iarrayExprBind e var val
  | bindParam val => iarrayExprBindParam e val

def isBind : BindCall → Bool
  | bind _ _ => true
  | bindParam _ => false

/-- The table of the call is full. -/
def Overfills (e : Expression) : BindCall → Prop
  | bind _ _ => exprOperandsMax ≤ e.vars.length
  | bindParam _ => exprUserParamsMax ≤ e.userParams.length

end BindCall

/-- A call of a user, who goes on with the same expression when it is refused. -/
def callOn (e : Expression) (call : BindCall) : Eval Expression :=
  ⟨(call.run e).log, match (call.run e).outcome with
    | .error (.code _) => .ok e
    | r => r⟩

def bindAll (e : Expression) (calls : List BindCall) : Eval Expression := calls.foldlM callOn e

/-- What the compiler is given. -/
inductive ExprSource
  | expr (s : String)
  | udf (llvmBc : List Nat) (name : String)

def compileSource (jug : Jug) (e : Expression) : ExprSource → Eval Expression
  | .expr s => iarrayExprCompile jug e s
  | .udf llvmBc name => iarrayExprCompileUdf jug e llvmBc name

/-- Bind, compile and evaluate. -/
def exprSession (E : Backend) (S : Surroundings) (jug : Jug) (e : Expression)
    (calls : List BindCall) (source : ExprSource) : Eval Container := do
  let e ← bindAll e calls
  let e ← compileSource jug e source
  iarrayEval E S e

/-- Every call on a full table is refused and leaves the expression as it is, and nothing is indexed
behind the end of a table. -/
structure KeepsCapacity (E : Backend) (S : Surroundings) (jug : Jug) (e : Expression)
    (calls : List BindCall) (source : ExprSource) : Prop where
  full : ∀ pre call post e', calls = pre ++ call :: post → (bindAll e pre).outcome = .ok e' →
    call.Overfills e' →
      Refused (call.run e').outcome ∧ (bindAll e (pre ++ [call])).outcome = .ok e'
  indexed : ∀ t i, .table t i ∈ (exprSession E S jug e calls source).log → i < t.size

/-! ## What a block indexes -/

namespace Access

def InTable : Access → Prop
  | table t i => i < t.size
  | _ => True

end Access

theorem inTable_stepwise : Logged.Stepwise fun l => ∀ a ∈ l, Access.InTable a :=
  Logged.stepwise_forall _

namespace Table

variable {t : Table} {i n : Nat}

theorem index_inTable (h : i < t.size) : ∀ a ∈ (t.index i).log, a.InTable := by
  intro a ha
  obtain rfl := List.mem_singleton.mp ha
  exact h

theorem index_ok (h : i < t.size) : (t.index i).outcome = .ok () := if_pos h

theorem each_ok (h : n ≤ t.size) : (t.each n).outcome = .ok () :=
  Logged.forM_ok fun _ hi => index_ok ((List.mem_range.mp hi).trans_le h)

theorem each_inTable (h : n ≤ t.size) : ∀ a ∈ (t.each n).log, a.InTable :=
  inTable_stepwise.forM fun _ hi => index_inTable ((List.mem_range.mp hi).trans_le h)

end Table

theorem emit_buffer_inTable (size nbytes : Nat) :
    ∀ a ∈ (Logged.emit (.buffer size nbytes) : Eval Unit).log, a.InTable := by
  intro a ha
  obtain rfl := List.mem_singleton.mp ha
  trivial

theorem getitemCtx_inTable (c : Container) (nchunk start nitems destsize : Nat) :
    ∀ a ∈ (getitemCtx c nchunk start nitems destsize).log, a.InTable := by
  unfold getitemCtx
  split
  · exact inTable_stepwise.nil
  · split
    · exact inTable_stepwise.nil
    · intro a ha
      obtain rfl := List.mem_singleton.mp ha
      trivial

theorem readNext_inTable (E : Backend) (itr : IterReadBlock) :
    ∀ a ∈ (readNext E itr).log, a.InTable := by
  unfold readNext
  split
  · exact inTable_stepwise.nil
  · intro a ha
    obtain rfl := List.mem_singleton.mp ha
    trivial

section Block

variable {p : ExprPparams} {nblock : Nat}

theorem prefilterInput_inTable {x : (Container × ExprInput) × Nat} (hx : x.2 < dimensionMax) :
    ∀ a ∈ (prefilterInput p nblock x).log, a.InTable := by
  have hOperand : x.2 < exprOperandsMax := hx.trans (by decide)
  have hS := inTable_stepwise
  refine hS.bind (Table.index_inTable hx) fun _ _ => ?_
  refine hS.bind (Table.index_inTable hOperand) fun _ _ => ?_
  refine hS.bind (Table.index_inTable hOperand) fun _ _ => ?_
  refine hS.bind (Table.index_inTable hOperand) fun _ _ => ?_
  split
  · intro a ha
    obtain rfl := List.mem_singleton.mp ha
    trivial
  · refine hS.bind (Table.index_inTable hOperand) fun _ _ => ?_
    refine hS.bind (Table.index_inTable hOperand) fun _ _ => ?_
    refine hS.bind (getitemCtx_inTable _ _ _ _ _) fun _ _ => ?_
    split
    · exact inTable_stepwise.nil
    · exact inTable_stepwise.nil
  · exact inTable_stepwise.nil

/-- A block with at most eight operands indexes inside its tables. -/
theorem prefilterFunc_inTable (E : Backend) (hFew : p.inputs.length ≤ dimensionMax)
    (hParams : p.e.userParams.length ≤ exprUserParamsMax) :
    ∀ a ∈ (prefilterFunc E p nblock).log, a.InTable := by
  have hS := inTable_stepwise
  have hOperands : p.inputs.length ≤ exprOperandsMax := hFew.trans (by decide)
  refine hS.bind (Table.each_inTable hOperands) fun _ _ => ?_
  refine hS.bind (Table.each_inTable hOperands) fun _ _ => ?_
  refine hS.bind hS.nil fun _ _ => ?_
  refine hS.bind (hS.mapM fun x hx => prefilterInput_inTable ?_) fun _ _ => ?_
  · have := (List.mem_zipIdx hx).2.1
    omega
  refine hS.bind (Table.each_inTable hParams) fun _ _ => ?_
  refine hS.bind (Table.each_inTable hParams) fun _ _ => ?_
  refine hS.bind hS.nil fun _ _ => ?_
  exact hS.bind (Table.each_inTable hFew) fun _ _ => hS.nil

/-- A block with a ninth operand comes to it if it can read the first eight. -/
theorem ninth_indexed (E : Backend) {w : Window} {ps : List Pointer}
    (hMany : dimensionMax < p.inputs.length) (hOperands : p.inputs.length ≤ exprOperandsMax)
    (hWindow : window p.out.catarr.axes p.blockIndex nblock = .ok w)
    (hEight : ((p.inputs.take dimensionMax).zipIdx.mapM (prefilterInput p nblock)).outcome =
      .ok ps) :
    Access.table .inputsMalloced dimensionMax ∈ (prefilterFunc E p nblock).log := by
  have hEach : ∀ t : Table, t.size = exprOperandsMax →
      (t.each p.inputs.length).outcome = .ok () :=
    fun t ht => Table.each_ok (ht ▸ hOperands)
  have hLoop : Access.table .inputsMalloced dimensionMax ∈
      (p.inputs.zipIdx.mapM (prefilterInput p nblock)).log := by
    have hLen : (p.inputs.take dimensionMax).length = dimensionMax := List.length_take_of_le hMany.le
    rw [← List.take_append_drop dimensionMax p.inputs, List.drop_eq_getElem_cons hMany,
      List.zipIdx_append, List.zipIdx_cons, hLen, Nat.zero_add]
    refine Logged.mem_mapM (fun y hy => Logged.exists_of_mapM hEight hy) ?_
    exact Logged.mem_bind_left (List.mem_singleton_self _) _
  refine Logged.mem_bind_right (hEach _ rfl) ?_
  refine Logged.mem_bind_right (hEach _ rfl) ?_
  refine Logged.mem_bind_right hWindow ?_
  exact Logged.mem_bind_left hLoop _

end Block

/-! ## What an evaluation indexes -/

/-- The tables of an expression hold what they have room for. -/
structure Expression.Bounded (e : Expression) : Prop where
  vars : e.vars.length ≤ exprOperandsMax
  userParams : e.userParams.length ≤ exprUserParamsMax

section Evaluation

variable {E : Backend} {S : Surroundings} {e : Expression} {ret : Container}

theorem length_of_zipIdx_mapM {α β : Type} {xs : List α} {f : α × Nat → Eval β} {ys : List β}
    (h : (xs.zipIdx.mapM f).outcome = .ok ys) : ys.length = xs.length := by
  rw [← (Logged.mapM_eq_ok h).length_eq, List.length_zipIdx]

theorem zipIdx_lt {α : Type} {xs : List α} {n : Nat} (hLen : xs.length ≤ n) {x : α × Nat}
    (hx : x ∈ xs.zipIdx) : x.2 < n := by
  have := (List.mem_zipIdx hx).2.1
  omega

theorem chunkInput_inTable {x : IterReadBlock × Nat} (hx : x.2 < exprOperandsMax) :
    ∀ a ∈ (chunkInput E x).log, a.InTable := by
  have hS := inTable_stepwise
  refine hS.bind (readNext_inTable E x.1) fun _ _ => ?_
  refine hS.bind (Table.index_inTable hx) fun _ _ => ?_
  exact hS.bind (Table.index_inTable hx) fun _ _ => hS.nil

theorem iterchunkRound_inTable {iterOut : IterWriteBlock} {s : ChunkState}
    (hs : s.2.length ≤ exprOperandsMax) :
    ∀ a ∈ (iterchunkRound E e ret iterOut s).log, a.InTable := by
  have hS := inTable_stepwise
  refine hS.bind hS.nil fun _ _ => ?_
  refine hS.bind (hS.mapM fun x hx => chunkInput_inTable (zipIdx_lt hs hx)) fun _ _ => ?_
  refine hS.bind (hS.forM fun x _ => emit_buffer_inTable _ _) fun _ _ => ?_
  exact hS.bind hS.nil fun _ _ => hS.nil

theorem iterchunkRound_length {iterOut iterOut' : IterWriteBlock} {s s' : ChunkState}
    (h : (iterchunkRound E e ret iterOut s).outcome = .ok (iterOut', s')) :
    s'.2.length = s.2.length := by
  obtain ⟨_, _, h⟩ := Logged.bind_eq_ok.mp h
  obtain ⟨read, hRead, h⟩ := Logged.bind_eq_ok.mp h
  obtain ⟨_, _, h⟩ := Logged.bind_eq_ok.mp h
  obtain ⟨_, _, h⟩ := Logged.bind_eq_ok.mp h
  cases h
  rw [List.length_map, length_of_zipIdx_mapM hRead]

theorem iterchunk_inTable {outChunkshape : List Nat} (hVars : e.vars.length ≤ exprOperandsMax) :
    ∀ a ∈ (iarrayEvalIterchunk E S e ret outChunkshape).log, a.InTable := by
  have hS := inTable_stepwise
  refine hS.bind (Table.each_inTable hVars) fun _ _ => ?_
  refine hS.bind hS.nil fun iterVar hIter => ?_
  refine hS.bind hS.nil fun _ _ => ?_
  refine hS.bind (Table.each_inTable hVars) fun _ _ => ?_
  refine hS.bind (Table.each_inTable hVars) fun _ _ => ?_
  refine hS.bind (Table.each_inTable hVars) fun _ _ => ?_
  refine hS.bind (evalLoop_stepwise hS (I := fun _ (s : ChunkState) => s.2.length ≤ exprOperandsMax)
    (fun _ _ hs => iterchunkRound_inTable hs)
    (fun _ _ _ _ hs h => (iterchunkRound_length h).trans_le hs) _ ?_) fun _ _ => ?_
  · rw [← (Result.mapM_eq_ok hIter).length_eq]
    exact hVars
  · exact hS.bind hS.nil fun _ _ => hS.nil

theorem fetchInput_inTable {nchunk : Nat} {x : Operand × Nat} (hx : x.2 < exprOperandsMax) :
    ∀ a ∈ (fetchInput E S ret nchunk x).log, a.InTable := by
  have hS := inTable_stepwise
  refine hS.bind (Table.index_inTable hx) fun _ _ => ?_
  split
  · refine hS.bind (Table.index_inTable hx) fun _ _ => ?_
    split
    · exact hS.nil
    · refine hS.bind (Table.index_inTable hx) fun _ _ => ?_
      exact hS.bind (Table.index_inTable hx) fun _ _ => hS.nil
  · refine hS.bind (readNext_inTable E _) fun _ _ => ?_
    refine hS.bind (emit_buffer_inTable _ _) fun _ _ => ?_
    refine hS.bind hS.nil fun _ _ => ?_
    exact hS.bind (Table.index_inTable hx) fun _ _ => hS.nil

theorem iterbloscRound_inTable {iterOut : IterWriteBlock} {s : BloscState}
    (hParams : e.userParams.length ≤ exprUserParamsMax) (hs : s.2.length ≤ dimensionMax) :
    ∀ a ∈ (iterbloscRound E S e ret iterOut s).log, a.InTable := by
  have hS := inTable_stepwise
  have hOperands : s.2.length ≤ exprOperandsMax := hs.trans (by decide)
  refine hS.bind hS.nil fun _ _ => ?_
  refine hS.bind (hS.mapM fun x hx => fetchInput_inTable (zipIdx_lt hOperands hx))
    fun fetched hFetched => ?_
  refine hS.bind (hS.mapM fun nblock _ => prefilterFunc_inTable E ?_ hParams) fun _ _ => ?_
  · rw [List.length_map, length_of_zipIdx_mapM hFetched]
    exact hs
  · exact hS.bind (Table.each_inTable hOperands) fun _ _ => hS.nil

theorem iterbloscRound_length {iterOut iterOut' : IterWriteBlock} {s s' : BloscState}
    (h : (iterbloscRound E S e ret iterOut s).outcome = .ok (iterOut', s')) :
    s'.2.length = s.2.length := by
  obtain ⟨_, _, h⟩ := Logged.bind_eq_ok.mp h
  obtain ⟨fetched, hFetched, h⟩ := Logged.bind_eq_ok.mp h
  obtain ⟨_, _, h⟩ := Logged.bind_eq_ok.mp h
  obtain ⟨_, _, h⟩ := Logged.bind_eq_ok.mp h
  cases h
  rw [List.length_map, length_of_zipIdx_mapM hFetched]

theorem iterblosc_inTable {outChunkshape : List Nat} (hFew : e.vars.length ≤ dimensionMax)
    (hParams : e.userParams.length ≤ exprUserParamsMax) :
    ∀ a ∈ (iarrayEvalIterblosc E S e ret outChunkshape).log, a.InTable := by
  have hS := inTable_stepwise
  have hVars : e.vars.length ≤ exprOperandsMax := hFew.trans (by decide)
  refine hS.bind (Table.each_inTable hVars) fun _ _ => ?_
  refine hS.bind (Table.each_inTable hVars) fun _ _ => ?_
  refine hS.bind (Table.each_inTable hVars) fun _ _ => ?_
  refine hS.bind hS.nil fun operands hOperands => ?_
  refine hS.bind hS.nil fun _ _ => ?_
  refine hS.bind (evalLoop_stepwise hS (I := fun _ (s : BloscState) => s.2.length ≤ dimensionMax)
    (fun _ _ hs => iterbloscRound_inTable hParams hs)
    (fun _ _ _ _ hs h => (iterbloscRound_length h).trans_le hs) _ ?_) fun _ _ => hS.nil
  rw [← (Result.mapM_eq_ok hOperands).length_eq]
  exact hFew

/-- The prefilter is entered by the method "iterblosc" only. -/
theorem iarrayEval_inTable (hBounded : e.Bounded)
    (h : e.vars.length ≤ dimensionMax ∨ e.evalMethod = .iterchunk) :
    ∀ a ∈ (iarrayEval E S e).log, a.InTable := by
  have hS := inTable_stepwise
  refine hS.bind hS.nil fun ret _ => ?_
  split
  · exact iterchunk_inTable hBounded.vars
  next hMethod =>
    refine iterblosc_inTable (h.resolve_right fun hChunk => ?_) hBounded.userParams
    rw [hMethod] at hChunk
    cases hChunk
  · exact hS.nil

end Evaluation

/-! ## What binding indexes -/

section Binding

variable {e : Expression} {calls : List BindCall}

theorem callOn_bind {var : String} {val : Container} (h : e.vars.length < exprOperandsMax) :
    (callOn e (.bind var val)).outcome = .ok { e with vars := e.vars ++ [(var, val)] } := by
  have hOk : (iarrayExprBind e var val).outcome = .ok { e with vars := e.vars ++ [(var, val)] } :=
    Logged.bind_eq_ok.mpr ⟨(), Table.index_ok h, rfl⟩
  rw [callOn, BindCall.run, hOk]

theorem bindParam_refused {val : Cell} (h : exprUserParamsMax ≤ e.userParams.length) :
    (iarrayExprBindParam e val).outcome = inaError .full := by
  rw [iarrayExprBindParam, if_pos h]
  rfl

theorem callOn_bindParam {val : Cell} :
    (callOn e (.bindParam val)).outcome = .ok (if e.userParams.length ≥ exprUserParamsMax then e
      else { e with userParams := e.userParams ++ [val] }) := by
  split
  next h => rw [callOn, BindCall.run, bindParam_refused h, inaError]
  next h =>
    have hOk : (iarrayExprBindParam e val).outcome =
        .ok { e with userParams := e.userParams ++ [val] } := by
      rw [iarrayExprBindParam, if_neg h]
      exact Logged.bind_eq_ok.mpr ⟨(), Table.index_ok (Nat.lt_of_not_le h), rfl⟩
    rw [callOn, BindCall.run, hOk]

theorem callOn_inTable {call : BindCall} (h : call.isBind = true → e.vars.length < exprOperandsMax) :
    ∀ a ∈ (callOn e call).log, a.InTable := by
  have hS := inTable_stepwise
  cases call with
  | bind var val => exact hS.bind (Table.index_inTable (h rfl)) fun _ _ => hS.nil
  | bindParam val =>
    show ∀ a ∈ (iarrayExprBindParam e val).log, a.InTable
    unfold iarrayExprBindParam
    split
    next => exact hS.nil
    next hRoom =>
      exact hS.bind (Table.index_inTable (Nat.lt_of_not_le hRoom)) fun _ _ => hS.nil

/-- One call: the table of the operands grows with every operand. -/
theorem callOn_ok {call : BindCall} (hBounded : e.Bounded)
    (h : call.isBind = true → e.vars.length < exprOperandsMax) :
    ∃ e', (callOn e call).outcome = .ok e' ∧ e'.Bounded ∧
      e'.vars.length = e.vars.length + [call].countP BindCall.isBind := by
  cases call with
  | bind var val =>
    refine ⟨_, callOn_bind (h rfl), ⟨?_, hBounded.userParams⟩, by simp [BindCall.isBind]⟩
    rw [List.length_append]
    exact h rfl
  | bindParam val =>
    refine ⟨_, callOn_bindParam, ⟨?_, ?_⟩, ?_⟩ <;> split
    · exact hBounded.vars
    · exact hBounded.vars
    · exact hBounded.userParams
    · rw [List.length_append, List.length_singleton]
      omega
    · rfl
    · rfl

theorem callOn_bounded {call : BindCall} {e' : Expression} (hBounded : e.Bounded)
    (h : (callOn e call).outcome = .ok e') : e'.Bounded := by
  have hRoom : call.isBind = true → e.vars.length < exprOperandsMax := by
    intro hBind
    cases call with
    | bindParam val => cases hBind
    | bind var val =>
      by_contra hFull
      have hIndex : (Table.vars.index e.vars.length).outcome = crash .outOfBounds := if_neg hFull
      rw [callOn, BindCall.run, iarrayExprBind, Logged.bind_of_error hIndex] at h
      cases h
  obtain ⟨e₁, hOk, hBounded₁, -⟩ := callOn_ok hBounded hRoom
  cases hOk.symm.trans h
  exact hBounded₁

/-- An expression that is bound has its tables in order. -/
theorem bindAll_bounded {e' : Expression} (hBounded : e.Bounded)
    (h : (bindAll e calls).outcome = .ok e') : e'.Bounded := by
  induction calls generalizing e with
  | nil =>
    cases h
    exact hBounded
  | cons call calls ih =>
    rw [bindAll, List.foldlM_cons] at h
    obtain ⟨e₁, hCall, h⟩ := Logged.bind_eq_ok.mp h
    exact ih (callOn_bounded hBounded hCall) h

/-- As many operands as the table has room for are bound. -/
theorem bindAll_ok (hBounded : e.Bounded)
    (hRoom : e.vars.length + calls.countP BindCall.isBind ≤ exprOperandsMax) :
    (∀ a ∈ (bindAll e calls).log, a.InTable) ∧
      ∃ e', (bindAll e calls).outcome = .ok e' ∧ e'.Bounded ∧
        e'.vars.length = e.vars.length + calls.countP BindCall.isBind := by
  induction calls generalizing e with
  | nil => exact ⟨inTable_stepwise.nil, e, rfl, hBounded, rfl⟩
  | cons call calls ih =>
    rw [← List.singleton_append, List.countP_append] at hRoom ⊢
    have hLess : call.isBind = true → e.vars.length < exprOperandsMax := by
      intro hBind
      rw [List.countP_singleton, hBind] at hRoom
      simp only [if_true] at hRoom
      omega
    obtain ⟨e₁, hCall, hBounded₁, hLen₁⟩ := callOn_ok hBounded hLess
    obtain ⟨hLog, e₂, hRest, hBounded₂, hLen₂⟩ := ih hBounded₁ (by omega)
    rw [bindAll, List.singleton_append, List.foldlM_cons]
    refine ⟨inTable_stepwise.bind (callOn_inTable hLess) fun e' he' => ?_, e₂,
      Logged.bind_eq_ok.mpr ⟨e₁, hCall, hRest⟩, hBounded₂, by omega⟩
    rw [hCall] at he'
    cases he'
    exact hLog

theorem compile_inTable {jug : Jug} {source : ExprSource} (hBounded : e.Bounded) :
    ∀ a ∈ (compileSource jug e source).log, a.InTable := by
  have hS := inTable_stepwise
  cases source with
  | expr s =>
    refine hS.bind (Table.each_inTable hBounded.vars) fun _ _ => ?_
    exact hS.bind hS.nil fun _ _ => hS.nil
  | udf llvmBc name => exact hS.bind hS.nil fun _ _ => hS.nil

theorem compile_tables {jug : Jug} {source : ExprSource} {e' : Expression}
    (h : (compileSource jug e source).outcome = .ok e') :
    e'.vars = e.vars ∧ e'.userParams = e.userParams := by
  cases source with
  | expr s =>
    obtain ⟨_, _, h⟩ := Logged.bind_eq_ok.mp h
    obtain ⟨_, _, h⟩ := Logged.bind_eq_ok.mp h
    cases h
    exact ⟨rfl, rfl⟩
  | udf llvmBc name =>
    obtain ⟨_, _, h⟩ := Logged.bind_eq_ok.mp h
    cases h
    exact ⟨rfl, rfl⟩

/-- A compiled expression knows the size of its output. -/
theorem compileSource_compiled {jug : Jug} {source : ExprSource} {e' : Expression}
    (h : (compileSource jug e source).outcome = .ok e') :
    e'.exprFunc.isSome ∧ e'.typesize = e'.outDtshape.dtypeSize ∧
      e'.nbytes = e'.outDtshape.shape.prod * e'.outDtshape.dtypeSize := by
  cases source with
  | expr s =>
    obtain ⟨_, _, h⟩ := Logged.bind_eq_ok.mp h
    obtain ⟨_, _, h⟩ := Logged.bind_eq_ok.mp h
    cases h
    exact ⟨rfl, rfl, rfl⟩
  | udf llvmBc name =>
    obtain ⟨_, _, h⟩ := Logged.bind_eq_ok.mp h
    cases h
    exact ⟨rfl, rfl, rfl⟩

theorem bindAll_append (e : Expression) (pre : List BindCall) (call : BindCall) :
    bindAll e (pre ++ [call]) = bindAll e pre >>= fun e' => callOn e' call := by
  rw [bindAll, List.foldlM_append]
  refine bind_congr fun e' => ?_
  rw [List.foldlM_cons]
  exact bind_pure _

/-- With room for all operands only a parameter finds its table full. -/
theorem full_of_room (hBounded : e.Bounded)
    (hRoom : e.vars.length + calls.countP BindCall.isBind ≤ exprOperandsMax) {pre post : List BindCall}
    {call : BindCall} {e' : Expression} (hCalls : calls = pre ++ call :: post)
    (hPre : (bindAll e pre).outcome = .ok e') (hFull : call.Overfills e') :
    Refused (call.run e').outcome ∧ (bindAll e (pre ++ [call])).outcome = .ok e' := by
  rw [hCalls, List.countP_append, List.countP_cons] at hRoom
  obtain ⟨_, e₁, hOk, _, hLen⟩ := @bindAll_ok e pre hBounded (by omega)
  obtain rfl := Except.ok.inj (hPre.symm.trans hOk)
  cases call with
  | bind var val =>
    have hFull : exprOperandsMax ≤ e'.vars.length := hFull
    rw [BindCall.isBind, if_pos rfl] at hRoom
    omega
  | bindParam val =>
    have hFull : exprUserParamsMax ≤ e'.userParams.length := hFull
    refine ⟨⟨.full, bindParam_refused hFull⟩, ?_⟩
    rw [bindAll_append]
    refine Logged.bind_eq_ok.mpr ⟨e', hPre, ?_⟩
    rw [callOn_bindParam, if_pos hFull]

/-- More calls than fit reach one that finds as many before it as fit. -/
theorem exists_full {n : Nat} (h : n < calls.countP BindCall.isBind) :
    ∃ pre var val post, calls = pre ++ .bind var val :: post ∧
      pre.countP BindCall.isBind = n := by
  induction calls generalizing n with
  | nil => cases h
  | cons call calls ih =>
    cases call with
    | bindParam val =>
      rw [List.countP_cons_of_neg Bool.false_ne_true] at h
      obtain ⟨pre, var, val', post, rfl, hPre⟩ := ih h
      refine ⟨.bindParam val :: pre, var, val', post, rfl, ?_⟩
      rw [List.countP_cons_of_neg Bool.false_ne_true, hPre]
    | bind var val =>
      rcases n with _ | n
      · exact ⟨[], var, val, calls, rfl, rfl⟩
      · rw [List.countP_cons_of_pos rfl] at h
        obtain ⟨pre, var', val', post, rfl, hPre⟩ := ih (Nat.lt_of_succ_lt_succ h)
        refine ⟨.bind var val :: pre, var', val', post, rfl, ?_⟩
        rw [List.countP_cons_of_pos rfl, hPre]

end Binding

theorem exprNew_empty {method : EvalMethod} {dataType : Dtype} {dtshape : Dtshape} {store : Storage}
    {e : Expression} (h : iarrayExprNew method dataType dtshape store = .ok e) :
    e.vars = [] ∧ e.userParams = [] := by
  obtain ⟨_, _, h⟩ := Result.bind_eq_ok.mp h
  cases h
  exact ⟨rfl, rfl⟩

theorem bounded_of_new {method : EvalMethod} {dataType : Dtype} {dtshape : Dtshape} {store : Storage}
    {e : Expression} (h : iarrayExprNew method dataType dtshape store = .ok e) : e.Bounded := by
  obtain ⟨hVars, hParams⟩ := exprNew_empty h
  constructor
  · rw [hVars]
    exact Nat.zero_le _
  · rw [hParams]
    exact Nat.zero_le _

theorem compile_outProperties {jug : Jug} {e e' : Expression} {source : ExprSource}
    (h : (compileSource jug e source).outcome = .ok e') :
    e'.outDtshape = e.outDtshape ∧ e'.outStoreProperties = e.outStoreProperties := by
  cases source with
  | expr s =>
    obtain ⟨_, _, h⟩ := Logged.bind_eq_ok.mp h
    obtain ⟨_, _, h⟩ := Logged.bind_eq_ok.mp h
    cases h
    exact ⟨rfl, rfl⟩
  | udf llvmBc name =>
    obtain ⟨_, _, h⟩ := Logged.bind_eq_ok.mp h
    cases h
    exact ⟨rfl, rfl⟩

theorem compile_method {jug : Jug} {e e' : Expression} {source : ExprSource}
    (h : (compileSource jug e source).outcome = .ok e') :
    e'.evalMethod = if e.evalMethod = .auto then .iterblosc else e.evalMethod := by
  cases source with
  | expr s =>
    obtain ⟨_, _, h⟩ := Logged.bind_eq_ok.mp h
    obtain ⟨_, _, h⟩ := Logged.bind_eq_ok.mp h
    cases h
    rfl
  | udf llvmBc name =>
    obtain ⟨_, _, h⟩ := Logged.bind_eq_ok.mp h
    cases h
    rfl

/-- Binding leaves the output properties as they are. -/
theorem callOn_outProperties {e e' : Expression} {call : BindCall}
    (h : (callOn e call).outcome = .ok e') : e'.evalMethod = e.evalMethod ∧
      e'.outDtshape = e.outDtshape ∧ e'.outStoreProperties = e.outStoreProperties := by
  cases call with
  | bind var val =>
    by_cases hRoom : e.vars.length < exprOperandsMax
    · rw [callOn_bind hRoom] at h
      cases h
      exact ⟨rfl, rfl, rfl⟩
    · have hIndex : (Table.vars.index e.vars.length).outcome = crash .outOfBounds := if_neg hRoom
      rw [callOn, BindCall.run, iarrayExprBind, Logged.bind_of_error hIndex] at h
      cases h
  | bindParam val =>
    rw [callOn_bindParam] at h
    cases h
    split
    · exact ⟨rfl, rfl, rfl⟩
    · exact ⟨rfl, rfl, rfl⟩

theorem bindAll_outProperties {e e' : Expression} {calls : List BindCall}
    (h : (bindAll e calls).outcome = .ok e') : e'.evalMethod = e.evalMethod ∧
      e'.outDtshape = e.outDtshape ∧ e'.outStoreProperties = e.outStoreProperties := by
  induction calls generalizing e with
  | nil =>
    cases h
    exact ⟨rfl, rfl, rfl⟩
  | cons call calls ih =>
    rw [bindAll, List.foldlM_cons] at h
    obtain ⟨e₁, hCall, h⟩ := Logged.bind_eq_ok.mp h
    obtain ⟨hMethod, hDtshape, hStore⟩ := callOn_outProperties hCall
    obtain ⟨hMethod', hDtshape', hStore'⟩ := ih h
    exact ⟨hMethod'.trans hMethod, hDtshape'.trans hDtshape, hStore'.trans hStore⟩

/-- A session with at most eight operands, or with the method that does not enter the prefilter,
indexes inside its tables. -/
theorem session_inTable {E : Backend} {S : Surroundings} {jug : Jug} {e : Expression}
    {calls : List BindCall} {source : ExprSource} (hBounded : e.Bounded)
    (hRoom : e.vars.length + calls.countP BindCall.isBind ≤ exprOperandsMax)
    (h : e.vars.length + calls.countP BindCall.isBind ≤ dimensionMax ∨ e.evalMethod = .iterchunk) :
    ∀ a ∈ (exprSession E S jug e calls source).log, a.InTable := by
  have hS := inTable_stepwise
  obtain ⟨hLog, e₁, hBind, hBounded₁, hLen⟩ := bindAll_ok hBounded hRoom
  refine hS.bind hLog fun e' he' => ?_
  obtain rfl := Except.ok.inj (hBind.symm.trans he')
  refine hS.bind (compile_inTable hBounded₁) fun e₂ he₂ => ?_
  obtain ⟨hVars, hParams⟩ := compile_tables he₂
  refine iarrayEval_inTable ⟨hVars ▸ hBounded₁.vars, hParams ▸ hBounded₁.userParams⟩ ?_
  rw [hVars, hLen, compile_method he₂]
  refine h.imp id fun hMethod => ?_
  rw [(bindAll_outProperties hBind).1, hMethod]
  rfl

namespace TableExample

def operand : Container :=
  Reference.plain .int64 [.ofCuts 1 1 1] fun _ => .bits 7

/-- No proxies and only compressed chunks. -/
def surroundings : Surroundings := ⟨fun _ => false, fun _ _ => false, fun _ _ => 0, fun _ => 0⟩

/-- The compiled function copies the first operand. -/
def jug : Jug where
  expressionCompile _ _ _ := .ok fun eval out => match eval.inputs with
    | [] => .ok out
    | p :: _ => .ok (p.load Reference.backend.machine)
  udfCompile _ _ _ := inaError .notSupported

def expression (method : EvalMethod) : Expression :=
  ⟨.int64, ⟨.int64, [1]⟩, ⟨[1], [1]⟩, method, 0, 0, [], [], none⟩

def session (method : EvalMethod) (n : Nat) : Eval Container :=
  exprSession Reference.backend surroundings jug (expression method)
    (List.replicate n (.bind "x" operand)) (.expr "x")

/-- Whether something behind the end of a table is indexed. -/
def overruns (l : List Access) : Bool :=
  l.any fun
    | .table t i => t.size ≤ i
    | _ => false

end TableExample

end IronArray
